import Mathlib

/-! # Fixed-width memory images of integers

The bytes of a natural number or of a two's-complement integer of a given width, in either byte
order, and the round trip through them.
-/

namespace Gafq.Base

/-- The low `width` bytes of `x`, least significant first. -/
def littleEndian : Nat → Nat → List UInt8
  | 0, _ => []
  | width + 1, x => UInt8.ofNat x :: littleEndian width (x / 256)

/-- The number whose bytes, least significant first, are given. -/
def ofLittleEndian : List UInt8 → Nat
  | [] => 0
  | b :: bs => b.toNat + 256 * ofLittleEndian bs

/-- The image of `x` in `width` bytes, in the byte order of the machine. -/
def natImage (little : Bool) (width x : Nat) : List UInt8 :=
  if little then littleEndian width x else (littleEndian width x).reverse

def ofNatImage (little : Bool) (bs : List UInt8) : Nat :=
  ofLittleEndian (if little then bs else bs.reverse)

/-- The two's-complement image of `x` in `width` bytes. -/
def intImage (little : Bool) (width : Nat) (x : Int) : List UInt8 :=
  natImage little width (x % (256 ^ width : Nat)).toNat

/-- The signed number of an image: numbers from half the range on stand for negative ones. -/
def ofIntImage (little : Bool) (bs : List UInt8) : Int :=
  let n := ofNatImage little bs
  if 2 * n < 256 ^ bs.length then n else (n : Int) - (256 ^ bs.length : Nat)

@[simp] theorem length_littleEndian (width x : Nat) : (littleEndian width x).length = width := by
  induction width generalizing x with
  | zero => rfl
  | succ width inductionHypothesis => simp [littleEndian, inductionHypothesis]

@[simp] theorem length_natImage (little : Bool) (width x : Nat) :
    (natImage little width x).length = width := by
  unfold natImage; split <;> simp

@[simp] theorem length_intImage (little : Bool) (width : Nat) (x : Int) :
    (intImage little width x).length = width := length_natImage ..

theorem ofLittleEndian_littleEndian {width x : Nat} (fits : x < 256 ^ width) :
    ofLittleEndian (littleEndian width x) = x := by
  induction width generalizing x with
  | zero => simp only [pow_zero] at fits; simp [littleEndian, ofLittleEndian]; omega
  | succ width inductionHypothesis =>
    have quotient : x / 256 < 256 ^ width := by
      rw [Nat.div_lt_iff_lt_mul (by decide)]
      simpa [pow_succ] using fits
    simp only [littleEndian, ofLittleEndian, inductionHypothesis quotient, UInt8.toNat_ofNat']
    omega

theorem ofNatImage_natImage (little : Bool) {width x : Nat} (fits : x < 256 ^ width) :
    ofNatImage little (natImage little width x) = x := by
  cases little <;> simp [ofNatImage, natImage, ofLittleEndian_littleEndian fits]

/-- `x` is representable as a signed number of `width` bytes. -/
def SignedFits (width : Nat) (x : Int) : Prop :=
  -(256 ^ width : Nat) ≤ 2 * x ∧ 2 * x < (256 ^ width : Nat)

instance (width : Nat) (x : Int) : Decidable (SignedFits width x) := by
  unfold SignedFits; infer_instance

theorem ofIntImage_intImage (little : Bool) {width : Nat} {x : Int} (fits : SignedFits width x) :
    ofIntImage little (intImage little width x) = x := by
  obtain ⟨lower, upper⟩ := fits
  have positive : (0 : Int) < (256 ^ width : Nat) := by exact_mod_cast Nat.pow_pos (by decide)
  have small : (x % (256 ^ width : Nat)).toNat < 256 ^ width := by
    have := Int.emod_lt_of_pos x positive
    have := Int.emod_nonneg x positive.ne'
    omega
  unfold ofIntImage intImage
  simp only [length_natImage, ofNatImage_natImage little small]
  -- a negative number is represented by the number plus the range
  by_cases negative : x < 0
  · have wrapped : x % (256 ^ width : Nat) = x + (256 ^ width : Nat) := by
      rw [← Int.add_emod_right, Int.emod_eq_of_lt] <;> omega
    rw [wrapped]
    split <;> omega
  · have same : x % (256 ^ width : Nat) = x := Int.emod_eq_of_lt (by omega) (by omega)
    rw [same]
    split <;> omega

end Gafq.Base
