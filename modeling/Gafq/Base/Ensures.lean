import Mathlib

/-! # Pre- and postconditions for computations with state and errors

`Ensures pre m post error` says that `m`, started in a state that satisfies `pre`, either returns a
value and a state that satisfy `post` or ends with an error in a state that satisfies `error`.  A
computation that fails leaves a state behind, and what holds of that state is part of the
statement.  The rules follow the structure of a computation.
-/

namespace Gafq.Base

variable {σ ε α β : Type} {pre pre' : σ → Prop} {post post' : α → σ → Prop} {error : σ → Prop}

def Ensures (pre : σ → Prop) (m : EStateM ε σ α) (post : α → σ → Prop) (error : σ → Prop) : Prop :=
  ∀ s, pre s → match m s with
    | .ok a s' => post a s'
    | .error _ s' => error s'

namespace Ensures

theorem pure {a : α} : Ensures (post a) (Pure.pure a : EStateM ε σ α) post error := fun _ holds => holds

theorem throw {e : ε} : Ensures error (MonadExcept.throw e : EStateM ε σ α) post error := fun _ holds => holds

theorem weaken {m : EStateM ε σ α} (valid : Ensures pre m post error) (before : ∀ s, pre' s → pre s)
    (after : ∀ a s, post a s → post' a s) : Ensures pre' m post' error := by
  intro s holds
  have reached := valid s (before s holds)
  cases ran : m s with
  | ok a s' =>
    rw [ran] at reached
    exact after a s' reached
  | error e s' =>
    rw [ran] at reached
    exact reached

theorem bind {m : EStateM ε σ α} {f : α → EStateM ε σ β} {middle : α → σ → Prop} {post : β → σ → Prop}
    (first : Ensures pre m middle error) (rest : ∀ a, Ensures (middle a) (f a) post error) :
    Ensures pre (m >>= f) post error := by
  intro s holds
  have reached := first s holds
  show match EStateM.bind m f s with
    | .ok b s' => post b s'
    | .error _ s' => error s'
  unfold EStateM.bind
  cases ran : m s with
  | ok a s' =>
    rw [ran] at reached
    exact rest a s' reached
  | error e s' =>
    rw [ran] at reached
    exact reached

theorem map {m : EStateM ε σ α} {f : α → β} {post : β → σ → Prop} (valid : Ensures pre m (fun a => post (f a)) error) :
    Ensures pre (f <$> m) post error := by
  intro s holds
  have reached := valid s holds
  show match EStateM.map f m s with
    | .ok b s' => post b s'
    | .error _ s' => error s'
  unfold EStateM.map
  cases ran : m s with
  | ok a s' =>
    rw [ran] at reached
    exact reached
  | error e s' =>
    rw [ran] at reached
    exact reached

/-- A computation that only changes the state. -/
theorem modify {f : σ → σ} {post : Unit → σ → Prop} (changes : ∀ s, pre s → post () (f s)) :
    Ensures pre (modify f : EStateM ε σ Unit) post error :=
  changes

theorem set {post : Unit → σ → Prop} {t : σ} (holds : ∀ s, pre s → post () t) :
    Ensures pre (set t : EStateM ε σ Unit) post error :=
  holds

theorem get {post : σ → σ → Prop} (holds : ∀ s, pre s → post s s) : Ensures pre (get : EStateM ε σ σ) post error :=
  holds

/-- What is known of values does not depend on the state. -/
theorem assume {p : Prop} {m : EStateM ε σ α} (valid : p → Ensures pre m post error) :
    Ensures (fun s => pre s ∧ p) m post error :=
  fun s holds => valid holds.2 s holds.1

/-- A computation in a known state. -/
theorem at_state {m : EStateM ε σ α} {s : σ} (valid : Ensures pre m post error) (holds : pre s) :
    Ensures (· = s) m post error := by
  rintro _ rfl
  exact valid _ holds

/-- The rest of a computation knows the state that it gets. -/
theorem get_bind {f : σ → EStateM ε σ β} {post : β → σ → Prop} (rest : ∀ s, pre s → Ensures (· = s) (f s) post error) :
    Ensures pre (MonadState.get >>= f) post error :=
  fun s holds => rest s holds s rfl

theorem ite {c : Prop} [Decidable c] {m m' : EStateM ε σ α} (whenTrue : c → Ensures pre m post error)
    (whenFalse : ¬ c → Ensures pre m' post error) : Ensures pre (if c then m else m') post error := by
  split
  · next holds => exact whenTrue holds
  · next fails => exact whenFalse fails

/-- Two ways to compute a value, and what both go on with. -/
theorem ite_bind {c : Prop} [Decidable c] {m m' : EStateM ε σ α} {f : α → EStateM ε σ β} {middle : α → σ → Prop}
    {post : β → σ → Prop} (first : Ensures pre (if c then m else m') middle error)
    (rest : ∀ a, Ensures (middle a) (f a) post error) : Ensures pre (if c then m >>= f else m' >>= f) post error := by
  split
  · next holds =>
    rw [if_pos holds] at first
    exact first.bind rest
  · next fails =>
    rw [if_neg fails] at first
    exact first.bind rest

/-- A step that is taken on a condition. -/
theorem when_bind {c : Prop} [Decidable c] {m : EStateM ε σ PUnit} {f : PUnit → EStateM ε σ β} {middle : PUnit → σ → Prop}
    {post : β → σ → Prop} (first : Ensures pre (if c then m else Pure.pure ⟨⟩) middle error)
    (rest : ∀ a, Ensures (middle a) (f a) post error) : Ensures pre (if c then m >>= f else f ⟨⟩) post error := by
  split
  · next holds =>
    rw [if_pos holds] at first
    exact first.bind rest
  · next fails =>
    rw [if_neg fails] at first
    exact fun s holds => rest _ s (first s holds)

end Ensures

/-- The state that `m` leaves behind, also when it fails. -/
def finalState (m : EStateM ε σ α) (s : σ) : σ :=
  match m s with
  | .ok _ s' | .error _ s' => s'

theorem Ensures.finalState {m : EStateM ε σ α} (valid : Ensures pre m (fun _ => error) error) {s : σ} (holds : pre s) :
    error (finalState m s) := by
  have reached := valid s holds
  unfold Base.finalState
  cases ran : m s with
  | ok a s' =>
    rw [ran] at reached
    exact reached
  | error e s' =>
    rw [ran] at reached
    exact reached

/-- Run `m` once for each of `n` items. -/
def repeatM (m : EStateM ε σ α) : Nat → EStateM ε σ (List α)
  | 0 => Pure.pure []
  | n + 1 => do
    let x ← m
    let xs ← repeatM m n
    Pure.pure (x :: xs)

/-- A loop keeps what its body keeps. -/
theorem Ensures.repeatM {m : EStateM ε σ α} (body : Ensures pre m (fun _ => pre) error) :
    ∀ n, Ensures pre (repeatM m n) (fun _ => pre) error
  | 0 => fun _ holds => holds
  | n + 1 => body.bind fun _ => (Ensures.repeatM body n).bind fun _ => fun _ holds => holds

end Gafq.Base
