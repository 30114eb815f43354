import Gafq.Base.Outcome

/-! # Operations that C leaves undefined

Reading outside of an array, an unsigned subtraction that wraps around and an `int` that does not fit its
type are faults.  A run that ends in a result is one in which none of them happens.
-/

namespace Gafq.Base

inductive Fault where
  | outOfBounds
  | overflow
  | outOfFuel
deriving DecidableEq, Repr

abbrev Checked := Except Fault

namespace Checked

variable {α : Type}

/-- The element at an index. -/
def get (xs : List α) (i : Nat) : Checked α :=
  match xs[i]? with
  | some x => .ok x
  | none => .error .outOfBounds

/-- `n` elements from an index on. -/
def slice (xs : List α) (i n : Nat) : Checked (List α) :=
  if i + n ≤ xs.length then .ok ((xs.drop i).take n) else .error .outOfBounds

/-- A difference of two sizes. -/
def sub (a b : Nat) : Checked Nat := if b ≤ a then .ok (a - b) else .error .overflow

/-- A value of the type `int`. -/
def int (k : Int) : Checked Int := if -2 ^ 31 ≤ k ∧ k < 2 ^ 31 then .ok k else .error .overflow

/-- A value of the type `int` that is not negative. -/
def count (n : Nat) : Checked Nat := if n < 2 ^ 31 then .ok n else .error .overflow

theorem get_of_lt {xs : List α} {i : Nat} (inside : i < xs.length) : get xs i = .ok xs[i] := by
  rw [get, List.getElem?_eq_getElem inside]

theorem slice_of_le {xs : List α} {i n : Nat} (inside : i + n ≤ xs.length) : slice xs i n = .ok ((xs.drop i).take n) :=
  if_pos inside

theorem sub_of_le {a b : Nat} (le : b ≤ a) : sub a b = .ok (a - b) := if_pos le

theorem count_of_lt {n : Nat} (small : n < 2 ^ 31) : count n = .ok n := if_pos small

theorem int_of_lt {n : Nat} (small : n < 2 ^ 31) : int n = .ok n := if_pos (by omega)

end Checked

end Gafq.Base
