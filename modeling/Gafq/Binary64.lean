import Gafq.Value

/-! # Numbers by their bit patterns

A `gafq_Number` is a double.  The interpreter compares it, converts it from and to an `int`, and changes its
sign; only these operations are here.
-/

namespace Gafq

/-- A bit pattern of 64 bits. -/
structure Binary64 where
  negative : Bool
  exponent : Fin (2 ^ 11)
  fraction : Fin (2 ^ 52)
deriving DecidableEq, Inhabited

namespace Binary64

def zero : Binary64 := ⟨false, 0, 0⟩

def negativeZero : Binary64 := ⟨true, 0, 0⟩

def isNaN (x : Binary64) : Bool := x.exponent.val = 2047 && x.fraction.val ≠ 0

def isZero (x : Binary64) : Bool := x.exponent.val = 0 && x.fraction.val = 0

/-- `a == b`: the two zeros are equal, and what is not a number is not equal to itself. -/
def eq (a b : Binary64) : Bool := !a.isNaN && !b.isNaN && (a = b || a.isZero && b.isZero)

/-- Conversion of an integer below `2^53` in magnitude. -/
def ofInt (k : Int) : Binary64 :=
  if k = 0 then zero
  else
    let e := k.natAbs.log2
    ⟨k < 0, Fin.ofNat _ (1023 + e), Fin.ofNat _ ((k.natAbs - 2 ^ e) * 2 ^ (52 - e))⟩

/-- The magnitude without its fractional part, when it is below `2^53`. -/
def magnitude (x : Binary64) : Nat :=
  if x.exponent.val < 1023 then 0 else (2 ^ 52 + x.fraction.val) / 2 ^ (1075 - x.exponent.val)

/-- `(int)(d)`; what does not fit in an `int` gives the least one. -/
def toInt (x : Binary64) : Int :=
  let k : Int := if x.negative then -x.magnitude else x.magnitude
  if x.exponent.val ≤ 1054 ∧ InInt k then k else -2 ^ 31

theorem isZero_iff (x : Binary64) : x.isZero = true ↔ x = zero ∨ x = negativeZero := by
  obtain ⟨negative, exponent, fraction⟩ := x
  have fields : isZero ⟨negative, exponent, fraction⟩ = true ↔ exponent = 0 ∧ fraction = 0 := by
    simp only [isZero, Bool.and_eq_true, decide_eq_true_eq, Fin.ext_iff, Fin.val_zero]
  rw [fields]
  cases negative <;> simp [zero, negativeZero]

theorem eq_symm {a b : Binary64} (equal : eq a b = true) : eq b a = true := by
  simp only [eq, Bool.and_eq_true, Bool.or_eq_true, decide_eq_true_eq] at equal ⊢
  obtain ⟨⟨first, second⟩, same | ⟨zero, zero'⟩⟩ := equal
  · exact ⟨⟨second, first⟩, .inl same.symm⟩
  · exact ⟨⟨second, first⟩, .inr ⟨zero', zero⟩⟩

theorem eq_trans {a b c : Binary64} (first : eq a b = true) (second : eq b c = true) : eq a c = true := by
  simp only [eq, Bool.and_eq_true, Bool.or_eq_true, decide_eq_true_eq] at first second ⊢
  obtain ⟨⟨number, -⟩, same | ⟨zero, zero'⟩⟩ := first
  · exact same ▸ second
  · obtain ⟨⟨-, number'⟩, same | ⟨-, zero''⟩⟩ := second
    · exact ⟨⟨number, number'⟩, .inr ⟨zero, same ▸ zero'⟩⟩
    · exact ⟨⟨number, number'⟩, .inr ⟨zero, zero''⟩⟩

/-- Equal numbers are identical, or they are zeros. -/
theorem eq_cases {a b : Binary64} (equal : eq a b = true) : a = b ∨ a.isZero = true ∧ b.isZero = true := by
  simp only [eq, Bool.and_eq_true, Bool.or_eq_true, decide_eq_true_eq] at equal
  exact equal.2

/-- An integer that is not zero has its leading bit at `e`, and the other bits are the fraction. -/
theorem ofInt_fields {k : Int} (inInt : InInt k) (nonzero : k ≠ 0) :
    ∃ e, e ≤ 31 ∧ 2 ^ e ≤ k.natAbs ∧ (ofInt k).negative = decide (k < 0) ∧ (ofInt k).exponent.val = 1023 + e ∧
      (ofInt k).fraction.val = (k.natAbs - 2 ^ e) * 2 ^ (52 - e) := by
  have bounds := inInt.1
  have bounds' := inInt.2
  have low : 2 ^ k.natAbs.log2 ≤ k.natAbs := Nat.log2_self_le (by omega)
  have high : k.natAbs < 2 ^ (k.natAbs.log2 + 1) := Nat.lt_log2_self
  have bound : k.natAbs.log2 < 32 := (Nat.log2_lt (by omega)).2 (by omega)
  have fits : (k.natAbs - 2 ^ k.natAbs.log2) * 2 ^ (52 - k.natAbs.log2) < 2 ^ 52 := by
    calc (k.natAbs - 2 ^ k.natAbs.log2) * 2 ^ (52 - k.natAbs.log2)
        < 2 ^ k.natAbs.log2 * 2 ^ (52 - k.natAbs.log2) :=
          Nat.mul_lt_mul_of_pos_right (by rw [Nat.pow_succ] at high; omega) (Nat.pow_pos (by decide))
      _ = 2 ^ 52 := by rw [← Nat.pow_add]; congr 1; omega
  refine ⟨k.natAbs.log2, by omega, low, ?_⟩
  simp only [ofInt, nonzero, if_false, Fin.val_ofNat]
  exact ⟨trivial, Nat.mod_eq_of_lt (by omega), Nat.mod_eq_of_lt fits⟩

theorem magnitude_ofInt {k : Int} (inInt : InInt k) (nonzero : k ≠ 0) : (ofInt k).magnitude = k.natAbs := by
  obtain ⟨e, small, low, -, exponent, fraction⟩ := ofInt_fields inInt nonzero
  have shift : 1075 - (1023 + e) = 52 - e := by omega
  have leading : 2 ^ 52 = 2 ^ e * 2 ^ (52 - e) := by
    rw [← Nat.pow_add]
    congr 1
    omega
  rw [magnitude, exponent, if_neg (by omega), fraction, shift, leading, ← Nat.add_mul, Nat.add_sub_cancel' low]
  exact Nat.mul_div_cancel _ (Nat.pow_pos (by decide))

theorem toInt_ofInt {k : Int} (inInt : InInt k) : (ofInt k).toInt = k := by
  by_cases isZero : k = 0
  · subst isZero
    decide
  · obtain ⟨e, small, -, negative, exponent, -⟩ := ofInt_fields inInt isZero
    have value : (if (ofInt k).negative then -((ofInt k).magnitude : Int) else (ofInt k).magnitude) = k := by
      rw [negative, magnitude_ofInt inInt isZero]
      split
      · next below =>
        have := of_decide_eq_true below
        omega
      · next above =>
        simp only [decide_eq_true_eq] at above
        omega
    simp only [toInt, value, exponent]
    exact if_pos ⟨by omega, inInt⟩

theorem ofInt_isNaN {k : Int} (inInt : InInt k) : (ofInt k).isNaN = false := by
  by_cases isZero : k = 0
  · subst isZero
    decide
  · obtain ⟨e, small, -, -, exponent, -⟩ := ofInt_fields inInt isZero
    have : (ofInt k).exponent.val ≠ 2047 := by omega
    simp only [isNaN, this, decide_false, Bool.false_and]

instance : GafqNumber Binary64 where
  numeq := eq
  castNum := ofInt
  number2int := toInt
  numeq_symm := eq_symm
  numeq_trans := eq_trans
  castNum_self {k} inInt := by simp [eq, ofInt_isNaN inInt]
  number2int_of_eq {k n} inInt equal := by
    obtain same | ⟨zero, zero'⟩ := eq_cases equal
    · rw [← same, toInt_ofInt inInt]
    · have isZero : k = 0 := by
        by_contra nonzero
        obtain ⟨e, -, -, -, exponent, -⟩ := ofInt_fields inInt nonzero
        simp [isZero, exponent] at zero
      subst isZero
      obtain rfl | rfl := (isZero_iff n).1 zero'
      · decide
      · decide
  number2int_inInt n := by
    unfold toInt
    extract_lets k
    split
    · next fits => exact fits.2
    · decide

/-- The numbers of a set that are equal are identical exactly when not both zeros are in it. -/
theorem identical_iff {asked : Binary64 → Prop} :
    (∀ a b, asked a → asked b → numeq a b = true → a = b) ↔ ¬ (asked zero ∧ asked negativeZero) := by
  constructor
  · intro identical ⟨first, second⟩
    exact absurd (identical zero negativeZero first second (by decide)) (by decide)
  · intro notBoth a b first second equal
    obtain same | ⟨isZero, isZero'⟩ := eq_cases equal
    · exact same
    · obtain rfl | rfl := (isZero_iff a).1 isZero
      · obtain rfl | rfl := (isZero_iff b).1 isZero'
        · rfl
        · exact absurd ⟨first, second⟩ notBoth
      · obtain rfl | rfl := (isZero_iff b).1 isZero'
        · exact absurd ⟨second, first⟩ notBoth
        · rfl

theorem isNaN_of_notSelf {r : Binary64} (notSelf : numeq r r = false) : r.isNaN = true := by
  have notSelf : eq r r = false := notSelf
  by_contra number
  simp [eq, number] at notSelf

/-- The sum of the two words of a number. -/
def words (x : Binary64) : Nat :=
  let bits := (if x.negative then 2 ^ 63 else 0) + x.exponent.val * 2 ^ 52 + x.fraction.val
  (bits % 2 ^ 32 + bits / 2 ^ 32) % 2 ^ 32

end Binary64

end Gafq
