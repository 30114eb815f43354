import Mathlib

/-! # What a computation that may fail returns

`Returns error m post` says that `m` either returns a value that satisfies `post` or fails with an
error that satisfies `error`.  The rules follow the structure of a computation.
-/

namespace Gafq.Base

variable {ε α β : Type} {error : ε → Prop} {post post' : α → Prop}

@[simp] theorem ok_bind (a : α) (f : α → Except ε β) : (Except.ok a >>= f) = f a := rfl

@[simp] theorem error_bind (e : ε) (f : α → Except ε β) : (Except.error e >>= f) = .error e := rfl

@[simp] theorem pure_eq_ok (a : α) : (pure a : Except ε α) = .ok a := rfl

def Returns (error : ε → Prop) (m : Except ε α) (post : α → Prop) : Prop :=
  match m with
  | .ok a => post a
  | .error e => error e

namespace Returns

theorem ok {a : α} (holds : post a) : Returns error (.ok a) post := holds

theorem pure {a : α} (holds : post a) : Returns error (Pure.pure a) post := holds

theorem fail {e : ε} (holds : error e) : Returns error (.error e : Except ε α) post := holds

theorem weaken {m : Except ε α} (returns : Returns error m post) (after : ∀ a, post a → post' a) :
    Returns error m post' := by
  cases m with
  | ok a => exact after a returns
  | error e => exact returns

theorem bind {m : Except ε α} {f : α → Except ε β} {post' : β → Prop} (first : Returns error m post)
    (rest : ∀ a, post a → Returns error (f a) post') : Returns error (m >>= f) post' := by
  cases m with
  | ok a => exact rest a first
  | error e => exact first

theorem ite {c : Prop} [Decidable c] {m m' : Except ε α} (whenTrue : c → Returns error m post)
    (whenFalse : ¬ c → Returns error m' post) : Returns error (if c then m else m') post := by
  split
  · next holds => exact whenTrue holds
  · next fails => exact whenFalse fails

end Returns

end Gafq.Base
