import Mathlib

/-! # What a computation with state and errors has returned

A run of a composed computation that ends without an error is taken apart into the runs of its parts.
-/

namespace Gafq.Base

variable {σ ε α β : Type}

theorem bind_returned {m : EStateM ε σ α} {f : α → EStateM ε σ β} {s s' : σ} {b : β} :
    (m >>= f) s = .ok b s' ↔ ∃ a t, m s = .ok a t ∧ f a t = .ok b s' := by
  show EStateM.bind m f s = .ok b s' ↔ _
  unfold EStateM.bind
  cases ran : m s with
  | ok a t =>
    constructor
    · intro rest
      exact ⟨a, t, rfl, rest⟩
    · rintro ⟨_, _, ⟨⟩, rest⟩
      exact rest
  | error e t => simp

theorem bind_congr_at {m m' : EStateM ε σ α} {f : α → EStateM ε σ β} {s : σ} (same : m s = m' s) :
    (m >>= f) s = (m' >>= f) s := by
  show EStateM.bind m f s = EStateM.bind m' f s
  simp only [EStateM.bind, same]

theorem map_returned {m : EStateM ε σ α} {f : α → β} {s s' : σ} {b : β} :
    (f <$> m) s = .ok b s' ↔ ∃ a, m s = .ok a s' ∧ f a = b := by
  show EStateM.map f m s = .ok b s' ↔ _
  unfold EStateM.map
  cases ran : m s with
  | ok a t =>
    simp only [EStateM.Result.ok.injEq]
    constructor
    · rintro ⟨rfl, rfl⟩
      exact ⟨a, ⟨rfl, rfl⟩, rfl⟩
    · rintro ⟨_, ⟨rfl, rfl⟩, rfl⟩
      exact ⟨rfl, rfl⟩
  | error e t => simp

theorem pure_returned {a b : α} {s s' : σ} : (pure a : EStateM ε σ α) s = .ok b s' ↔ b = a ∧ s' = s := by
  show EStateM.pure a s = .ok b s' ↔ _
  simp [EStateM.pure, eq_comm]

theorem get_returned {s s' t : σ} : (get : EStateM ε σ σ) s = .ok t s' ↔ t = s ∧ s' = s := by
  show EStateM.get s = .ok t s' ↔ _
  simp [EStateM.get, eq_comm]

theorem set_returned {s s' t : σ} {u : PUnit} : (set t : EStateM ε σ PUnit) s = .ok u s' ↔ s' = t := by
  show EStateM.set t s = .ok u s' ↔ _
  simp [EStateM.set, eq_comm]

theorem modify_returned {f : σ → σ} {s s' : σ} {u : PUnit} : (modify f : EStateM ε σ PUnit) s = .ok u s' ↔ s' = f s := by
  show EStateM.modifyGet (fun s => (PUnit.unit, f s)) s = .ok u s' ↔ _
  simp [EStateM.modifyGet, eq_comm]

theorem throw_returned {e : ε} {a : α} {s s' : σ} : (throw e : EStateM ε σ α) s = .ok a s' ↔ False := by
  show EStateM.throw e s = .ok a s' ↔ _
  simp [EStateM.throw]

end Gafq.Base
