import Gafq.Compiler.Grammar
import Gafq.FloatByte

/-! # The sizes of a new table

`gafqO_int2fb` halves a count until it has four bits, and rounds up each time; together these roundings are one
rounding up.  With 29 halvings the value of the byte does not fit an `int` any more.
-/

namespace Gafq

open Base Code Compiler

/-! ## The byte -/

/-- The value that a floating point byte `eeeeexxx` stands for. -/
def byteValue (b : Nat) : Nat := if b / 8 = 0 then b else (b % 8 + 8) * 2 ^ (b / 8 - 1)

/-- A byte that stands for a number of four bits with its highest bit set, doubled `k` times. -/
theorem byteValue_eq {m k : Nat} (low : 8 ≤ m) (high : m < 16) : byteValue ((k + 1) * 8 + (m - 8)) = m * 2 ^ k := by
  have exponent : ((k + 1) * 8 + (m - 8)) / 8 = k + 1 := by omega
  have mantissa : ((k + 1) * 8 + (m - 8)) % 8 + 8 = m := by omega
  rw [byteValue, exponent, mantissa, if_neg (Nat.succ_ne_zero k), Nat.add_sub_cancel]

/-- Every byte stands for a number below eight, or for such a number. -/
theorem byteValue_cases (b : Nat) :
    b < 8 ∧ byteValue b = b ∨ ∃ m k, 8 ≤ m ∧ m < 16 ∧ byteValue b = m * 2 ^ k := by
  by_cases small : b < 8
  · exact .inl ⟨small, if_pos (by omega)⟩
  · exact .inr ⟨b % 8 + 8, b / 8 - 1, by omega, by omega, if_neg (by omega)⟩

/-- Decoding a byte gives its value, if this is an `int`. -/
theorem fb2int_eq {b : Nat} (isByte : b < 256) : fb2int b = Checked.int (byteValue b) := by
  have exponent : (b >>> 3) &&& 31 = b / 8 := by
    rw [Nat.shiftRight_eq_div_pow, show (31 : Nat) = 2 ^ 5 - 1 from rfl, Nat.and_two_pow_sub_one_eq_mod]
    omega
  have mantissa : b &&& 7 = b % 8 := by rw [show (7 : Nat) = 2 ^ 3 - 1 from rfl, Nat.and_two_pow_sub_one_eq_mod]
  simp only [fb2int, exponent, mantissa, byteValue, Nat.shiftLeft_eq]
  split <;> rfl

/-! ## Rounding -/

/-- After `k` halvings of `x` the count `m` is left: `x` divided by `2 ^ k` and rounded up. -/
structure Halved (x m k : Nat) : Prop where
  small : m < 16
  covers : x ≤ m * 2 ^ k
  whole : k = 0 → m = x
  /-- one less would not cover `x`, and nor would `k - 1` halvings -/
  least : 0 < k → 8 ≤ m ∧ (m - 1) * 2 ^ k < x ∧ 15 * 2 ^ (k - 1) < x

theorem Halved.none {x : Nat} (small : x < 16) : Halved x x 0 := ⟨small, by simp, fun _ => rfl, nofun⟩

theorem Halved.succ {x m k : Nat} (large : 16 ≤ x) (halved : Halved ((x + 1) / 2) m k) : Halved x m (k + 1) := by
  have covers := halved.covers
  have twice : m * 2 ^ (k + 1) = 2 * (m * 2 ^ k) := by rw [Nat.pow_succ]; ring
  have twiceLess : (m - 1) * 2 ^ (k + 1) = 2 * ((m - 1) * 2 ^ k) := by rw [Nat.pow_succ]; ring
  refine ⟨halved.small, by omega, nofun, fun _ => ?_⟩
  rw [twiceLess, Nat.add_sub_cancel]
  cases k with
  | zero =>
    have same := halved.whole rfl
    omega
  | succ k =>
    obtain ⟨four, less, many⟩ := halved.least (Nat.succ_pos k)
    rw [Nat.add_sub_cancel] at many
    have twiceMany : 15 * 2 ^ (k + 1) = 2 * (15 * 2 ^ k) := by rw [Nat.pow_succ]; ring
    omega

theorem int2fbLoop_halved (fuel : Nat) {x : Nat} (e : Nat) (enough : x ≤ 2 ^ (fuel + 3)) :
    ∃ m k, int2fbLoop fuel x e = (m, e + k) ∧ Halved x m k := by
  induction fuel generalizing x e with
  | zero => exact ⟨x, 0, rfl, .none (by omega)⟩
  | succ fuel inductionHypothesis =>
    rw [int2fbLoop]
    by_cases large : x ≥ 16
    · have half : (x + 1) >>> 1 = (x + 1) / 2 := Nat.shiftRight_eq_div_pow _ _
      have enough' : (x + 1) / 2 ≤ 2 ^ (fuel + 3) := by
        rw [show fuel + 1 + 3 = fuel + 3 + 1 from rfl, Nat.pow_succ] at enough
        omega
      obtain ⟨m, k, ran, halved⟩ := inductionHypothesis (e + 1) enough'
      rw [if_pos large, half, ran]
      exact ⟨m, k + 1, by rw [Nat.add_right_comm, Nat.add_assoc], halved.succ large⟩
    · rw [if_neg large]
      exact ⟨x, 0, rfl, .none (by omega)⟩

/-- The byte of a count stands for the count that is left, doubled again. -/
theorem int2fb_halved {x : Nat} (isCount : x ≤ 2 ^ 31) : ∃ m k, Halved x m k ∧ k ≤ 28 ∧ int2fb x < 256 ∧
    byteValue (int2fb x) = m * 2 ^ k := by
  obtain ⟨m, k, ran, halved⟩ := int2fbLoop_halved 32 (x := x) 0 (by omega)
  rw [Nat.zero_add] at ran
  have few : k ≤ 28 := by
    by_contra many
    obtain ⟨-, -, more⟩ := halved.least (by omega)
    have grown : 2 ^ 28 ≤ 2 ^ (k - 1) := Nat.pow_le_pow_right (by decide) (by omega)
    omega
  have small := halved.small
  refine ⟨m, k, halved, few, ?_⟩
  simp only [int2fb, ran]
  by_cases low : m < 8
  · have none : k = 0 := by
      by_contra some
      have four := halved.least (Nat.pos_of_ne_zero some)
      omega
    rw [if_pos low, none, Nat.pow_zero, Nat.mul_one]
    exact ⟨by omega, if_pos (by omega)⟩
  · have joined : ((k + 1) <<< 3) ||| (m - 8) = (k + 1) * 8 + (m - 8) := by
      rw [Nat.shiftLeft_eq, show (2 : Nat) ^ 3 = 8 from rfl, Nat.mul_comm]
      exact (Nat.two_pow_add_eq_or_of_lt (i := 3) (by omega) (k + 1)).symm
    rw [if_neg low, joined]
    exact ⟨by omega, byteValue_eq (by omega) small⟩

/-- No byte stands for a number that covers the count and is smaller. -/
theorem Halved.le_byteValue {x m k b : Nat} (halved : Halved x m k) (covers : x ≤ byteValue b) : m * 2 ^ k ≤ byteValue b := by
  by_cases none : k = 0
  · rw [none, halved.whole none, Nat.pow_zero, Nat.mul_one]
    exact covers
  · obtain ⟨four, less, many⟩ := halved.least (Nat.pos_of_ne_zero none)
    have large : 15 ≤ 15 * 2 ^ (k - 1) := Nat.le_mul_of_pos_right _ (Nat.two_pow_pos _)
    obtain ⟨small, value⟩ | ⟨m', j, -, high, value⟩ := byteValue_cases b
    · omega
    · rw [value] at covers ⊢
      by_cases coarser : k ≤ j
      · -- both are multiples of `2 ^ k`
        obtain ⟨i, rfl⟩ := Nat.exists_eq_add_of_le coarser
        rw [Nat.pow_add, Nat.mul_comm (2 ^ k), ← Nat.mul_assoc] at covers ⊢
        have above := Nat.lt_of_mul_lt_mul_right (Nat.lt_of_lt_of_le less covers)
        exact Nat.mul_le_mul_right _ (by omega)
      · have finer : 2 ^ j ≤ 2 ^ (k - 1) := Nat.pow_le_pow_right (by decide) (by omega)
        have below : m' * 2 ^ j ≤ 15 * 2 ^ (k - 1) := Nat.mul_le_mul (by omega) finer
        omega

/-! ## Sizes -/

/-- The values that a byte decodes to. -/
def ByteSize (v : Int) : Prop := ∃ b < 256, fb2int b = .ok v

/-- The operand keeps the byte of a count, and the size that is decoded from it is the least one that a byte can
stand for and that is not smaller than the count. -/
def SizeKept (x : Nat) : Prop :=
  (∀ i, getArgB (setArgB i (int2fb x)) = int2fb x ∧ getArgC (setArgC i (int2fb x)) = int2fb x) ∧
  ∃ v, fb2int (int2fb x) = .ok v ∧ x ≤ v ∧ ∀ v', ByteSize v' → x ≤ v' → v ≤ v'

/-- The size of a table constructor with `x` items is kept if and only if it is at most 15 * 2^27, the largest number
that a byte stands for and that fits an `int`. -/
theorem int2fb_sizeKept_iff {x : Nat} (isCount : x ≤ Lexer.maxInt) : SizeKept x ↔ x ≤ 15 * 2 ^ 27 := by
  have limit : Lexer.maxInt = 2 ^ 31 - 3 := rfl
  obtain ⟨m, k, halved, few, isByte, value⟩ := int2fb_halved (x := x) (by omega)
  have decoded := fb2int_eq isByte
  rw [value] at decoded
  constructor
  · rintro ⟨-, v, ran, -⟩
    by_contra large
    -- the count has been halved 28 times
    have covers := halved.covers
    have small := halved.small
    have many : 2 ^ 31 ≤ m * 2 ^ k := by
      by_cases often : 28 ≤ k
      · have four := (halved.least (by omega)).1
        have grown : 2 ^ 28 ≤ 2 ^ k := Nat.pow_le_pow_right (by decide) often
        have product := Nat.mul_le_mul four grown
        omega
      · have bounded : 2 ^ k ≤ 2 ^ 27 := Nat.pow_le_pow_right (by decide) (by omega)
        have product : m * 2 ^ k ≤ 15 * 2 ^ 27 := Nat.mul_le_mul (by omega) bounded
        omega
    rw [decoded, Checked.int, if_neg (by omega)] at ran
    cases ran
  · intro small
    have fits : m * 2 ^ k < 2 ^ 31 := by
      have notOften : k ≤ 27 := by
        by_contra often
        have most := (halved.least (by omega)).2.2
        have grown : 2 ^ 27 ≤ 2 ^ (k - 1) := Nat.pow_le_pow_right (by decide) (by omega)
        omega
      have bounded : 2 ^ k ≤ 2 ^ 27 := Nat.pow_le_pow_right (by decide) notOften
      have product : m * 2 ^ k ≤ 15 * 2 ^ 27 := Nat.mul_le_mul (by have := halved.small; omega) bounded
      omega
    refine ⟨fun i => ⟨?_, ?_⟩, m * 2 ^ k, ?_, by exact_mod_cast halved.covers, ?_⟩
    · rw [getArgB_setArgB]
      omega
    · rw [getArgC_setArgC]
      omega
    · rw [decoded, Checked.int_of_lt fits]
      push_cast
      rfl
    · rintro v' ⟨b, byte, ran⟩ covers
      rw [fb2int_eq byte] at ran
      simp only [Checked.int] at ran
      split at ran
      · cases ran
        exact_mod_cast halved.le_byteValue (by exact_mod_cast covers)
      · cases ran

/-- A constructor with 1000 items asks for 1024 of them. -/
theorem int2fb_sizeKept_iff_thousand : SizeKept 1000 ↔ 1000 ≤ 15 * 2 ^ 27 := int2fb_sizeKept_iff (by decide)

/-- The size for one item more than 15 * 2^27 does not fit an `int`. -/
theorem fb2int_overflows : 15 * 2 ^ 27 + 1 ≤ Lexer.maxInt ∧ fb2int (int2fb (15 * 2 ^ 27 + 1)) = .error .overflow ∧
    ¬ SizeKept (15 * 2 ^ 27 + 1) := by
  have overflows : fb2int (int2fb (15 * 2 ^ 27 + 1)) = .error .overflow := by decide
  refine ⟨by decide, overflows, ?_⟩
  rintro ⟨-, v, ran, -⟩
  rw [overflows] at ran
  cases ran

end Gafq
