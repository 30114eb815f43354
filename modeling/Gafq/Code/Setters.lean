import Gafq.Opcodes

/-! # Changing the fields of an instruction

The macros of `gopcodes.h` that build an instruction from `int` operands and that replace one field of
an instruction.  A field that is replaced reads back as the new value, cut to its size, and no other
field changes.
-/

namespace Gafq.Code

/-- `cast(Instruction, x)` -/
def castInstruction (x : Int) : Nat := (x % 2 ^ 32).toNat

/-- `MASK1(size, pos)` -/
def mask1 (size pos : Nat) : Nat := (2 ^ size - 1) <<< pos

/-- The field of `size` bits at `pos` replaced by the low bits of `u`:
`(i & MASK0(size, pos)) | ((cast(Instruction, u) << pos) & MASK1(size, pos))`. -/
def setField (i : Instruction) (pos size : Nat) (u : Int) : Instruction :=
  (i &&& ~~~ UInt32.ofNat (mask1 size pos)) |||
    (UInt32.ofNat (castInstruction u <<< pos) &&& UInt32.ofNat (mask1 size pos))

def setOpcode (i : Instruction) (o : OpCode) : Instruction := setField i posOp sizeOp o.toNat
def setArgA (i : Instruction) (u : Int) : Instruction := setField i posA sizeA u
def setArgB (i : Instruction) (b : Int) : Instruction := setField i posB sizeB b
def setArgC (i : Instruction) (c : Int) : Instruction := setField i posC sizeC c
def setArgBx (i : Instruction) (b : Int) : Instruction := setField i posBx sizeBx b
def setArgSBx (i : Instruction) (b : Int) : Instruction := setArgBx i (b + maxArgSBx)

/-- `CREATE_ABC` -/
def instrABC (o : OpCode) (a b c : Int) : Instruction :=
  createABC o.toNat (castInstruction a) (castInstruction b) (castInstruction c)

/-- `CREATE_ABx` -/
def instrABx (o : OpCode) (a bc : Int) : Instruction := createABx o.toNat (castInstruction a) (castInstruction bc)

/-! ## Bits -/

theorem testBit_mask1 (size pos j : Nat) : (mask1 size pos).testBit j = decide (pos ≤ j ∧ j < pos + size) := by
  simp only [mask1, Nat.testBit_shiftLeft, Nat.testBit_two_pow_sub_one]
  by_cases low : pos ≤ j
  · simp only [low, decide_true, Bool.true_and, true_and, decide_eq_decide]
    omega
  · simp [low]

theorem testBit_getField (i : Instruction) (pos size j : Nat) :
    (getField i pos size).testBit j = (i.toNat.testBit (pos + j) && decide (j < size)) := by
  rw [getField, Nat.and_two_pow_sub_one_eq_mod, Nat.testBit_mod_two_pow, Nat.testBit_shiftRight, Bool.and_comm]

theorem testBit_setField (i : Instruction) (pos size : Nat) (u : Int) {j : Nat} (inWord : j < 32) :
    (setField i pos size u).toNat.testBit j =
      if pos ≤ j ∧ j < pos + size then (castInstruction u).testBit (j - pos) else i.toNat.testBit j := by
  have low : (UInt32.ofNat (mask1 size pos)).toNat.testBit j = decide (pos ≤ j ∧ j < pos + size) := by
    rw [UInt32.toNat_ofNat', Nat.testBit_mod_two_pow, testBit_mask1]
    simp [inWord]
  have shifted : (UInt32.ofNat (castInstruction u <<< pos)).toNat.testBit j =
      (decide (pos ≤ j) && (castInstruction u).testBit (j - pos)) := by
    rw [UInt32.toNat_ofNat', Nat.testBit_mod_two_pow, Nat.testBit_shiftLeft]
    simp [inWord]
  have complement : (~~~ UInt32.ofNat (mask1 size pos)).toNat.testBit j = !decide (pos ≤ j ∧ j < pos + size) := by
    rw [← low, ← UInt32.toNat_toBitVec, ← UInt32.toNat_toBitVec, UInt32.toBitVec_not, BitVec.testBit_toNat,
      BitVec.testBit_toNat, BitVec.getLsbD_not]
    simp [inWord]
  simp only [setField, UInt32.toNat_or, UInt32.toNat_and, Nat.testBit_or, Nat.testBit_and, low, shifted, complement]
  split
  · next inside => simp [inside]
  · next outside => simp [outside]

theorem testBit_of_le (i : Instruction) {j : Nat} (outside : 32 ≤ j) : i.toNat.testBit j = false :=
  Nat.testBit_lt_two_pow (Nat.lt_of_lt_of_le i.toNat_lt (Nat.pow_le_pow_right (by omega) outside))

/-- Another field keeps its value. -/
theorem getField_setField_of_disjoint (i : Instruction) {pos size pos' size' : Nat} (u : Int)
    (disjoint : pos + size ≤ pos' ∨ pos' + size' ≤ pos) : getField (setField i pos size u) pos' size' = getField i pos' size' := by
  apply Nat.eq_of_testBit_eq
  intro j
  simp only [testBit_getField]
  by_cases inField : j < size'
  · by_cases inWord : pos' + j < 32
    · rw [testBit_setField i pos size u inWord, if_neg (by omega)]
    · rw [testBit_of_le _ (by omega), testBit_of_le _ (by omega)]
  · simp [inField]

/-- The field itself is the new value, cut to its size. -/
theorem getField_setField (i : Instruction) {pos size : Nat} (u : Int) (fits : pos + size ≤ 32) :
    getField (setField i pos size u) pos size = (u % 2 ^ size).toNat := by
  have cut : (u % 2 ^ size).toNat = castInstruction u % 2 ^ size := by
    have divides : (2 : Int) ^ size ∣ 2 ^ 32 := pow_dvd_pow 2 (by omega)
    have positive : (0 : Int) ≤ u % 2 ^ 32 := Int.emod_nonneg _ (by norm_num)
    apply Int.natCast_inj.mp
    rw [Int.toNat_of_nonneg (Int.emod_nonneg _ (by positivity)), Int.natCast_mod, castInstruction,
      Int.toNat_of_nonneg positive]
    push_cast
    exact (Int.emod_emod_of_dvd u divides).symm
  rw [cut]
  apply Nat.eq_of_testBit_eq
  intro j
  rw [testBit_getField, Nat.testBit_mod_two_pow]
  by_cases inField : j < size
  · rw [testBit_setField i pos size u (by omega), if_pos (by omega)]
    simp [inField]
  · simp [inField]

/-! ## Fields -/

section

variable (i : Instruction) (u : Int) (o : OpCode)

@[simp] theorem getOpcode_setArgA : getOpcode (setArgA i u) = getOpcode i :=
  getField_setField_of_disjoint i u (Or.inr (by decide))

@[simp] theorem getOpcode_setArgB : getOpcode (setArgB i u) = getOpcode i :=
  getField_setField_of_disjoint i u (Or.inr (by decide))

@[simp] theorem getOpcode_setArgC : getOpcode (setArgC i u) = getOpcode i :=
  getField_setField_of_disjoint i u (Or.inr (by decide))

@[simp] theorem getOpcode_setArgSBx : getOpcode (setArgSBx i u) = getOpcode i :=
  getField_setField_of_disjoint i _ (Or.inr (by decide))

@[simp] theorem getArgA_setArgB : getArgA (setArgB i u) = getArgA i :=
  getField_setField_of_disjoint i u (Or.inr (by decide))

@[simp] theorem getArgA_setArgC : getArgA (setArgC i u) = getArgA i :=
  getField_setField_of_disjoint i u (Or.inr (by decide))

@[simp] theorem getArgA_setArgSBx : getArgA (setArgSBx i u) = getArgA i :=
  getField_setField_of_disjoint i _ (Or.inr (by decide))

@[simp] theorem getArgA_setOpcode : getArgA (setOpcode i o) = getArgA i :=
  getField_setField_of_disjoint i _ (Or.inl (by decide))

@[simp] theorem getArgB_setArgA : getArgB (setArgA i u) = getArgB i :=
  getField_setField_of_disjoint i u (Or.inl (by decide))

@[simp] theorem getArgB_setArgC : getArgB (setArgC i u) = getArgB i :=
  getField_setField_of_disjoint i u (Or.inl (by decide))

@[simp] theorem getArgC_setArgA : getArgC (setArgA i u) = getArgC i :=
  getField_setField_of_disjoint i u (Or.inl (by decide))

@[simp] theorem getArgC_setArgB : getArgC (setArgB i u) = getArgC i :=
  getField_setField_of_disjoint i u (Or.inr (by decide))

@[simp] theorem getArgBx_setArgA : getArgBx (setArgA i u) = getArgBx i :=
  getField_setField_of_disjoint i u (Or.inl (by decide))

@[simp] theorem getArgSBx_setArgA : getArgSBx (setArgA i u) = getArgSBx i := by
  rw [getArgSBx, getArgBx_setArgA, getArgSBx]

theorem getArgB_setArgB : getArgB (setArgB i u) = (u % 512).toNat := getField_setField i u (by decide)

theorem getArgC_setArgC : getArgC (setArgC i u) = (u % 512).toNat := getField_setField i u (by decide)

theorem getArgBx_setArgBx : getArgBx (setArgBx i u) = (u % 2 ^ 18).toNat := getField_setField i u (by decide)

theorem getArgSBx_setArgSBx {u : Int} (fits : u.natAbs ≤ maxArgSBx) : getArgSBx (setArgSBx i u) = u := by
  have bound : maxArgSBx = 131071 := by decide
  rw [getArgSBx, setArgSBx, getArgBx_setArgBx, bound]
  omega

theorem getOpcode_setOpcode : getOpcode (setOpcode i o) = o.toNat := by
  refine (getField_setField i (o.toNat : Int) (by decide)).trans ?_
  cases o <;> decide

@[simp] theorem opcode?_setArgA : opcode? (setArgA i u) = opcode? i := by simp [opcode?]

@[simp] theorem opcode?_setArgB : opcode? (setArgB i u) = opcode? i := by simp [opcode?]

@[simp] theorem opcode?_setArgC : opcode? (setArgC i u) = opcode? i := by simp [opcode?]

@[simp] theorem opcode?_setArgSBx : opcode? (setArgSBx i u) = opcode? i := by simp [opcode?]

theorem ofNat?_toNat : OpCode.ofNat? o.toNat = some o := by cases o <;> decide

@[simp] theorem opcode?_setOpcode : opcode? (setOpcode i o) = some o := by
  rw [opcode?, getOpcode_setOpcode, ofNat?_toNat]

end

/-! ## New instructions -/

theorem getField_ofNat (n pos size : Nat) (fits : pos + size ≤ 32) :
    getField (UInt32.ofNat n) pos size = (n >>> pos) % 2 ^ size := by
  apply Nat.eq_of_testBit_eq
  intro j
  rw [testBit_getField, UInt32.toNat_ofNat', Nat.testBit_mod_two_pow, Nat.testBit_mod_two_pow, Nat.testBit_shiftRight]
  by_cases inField : j < size
  · simp [inField, show pos + j < 32 by omega]
  · simp [inField]

theorem toNat_lt (o : OpCode) : o.toNat < 2 ^ 6 := by cases o <;> decide

theorem testBit_of_lt {n k j : Nat} (small : n < 2 ^ k) (high : k ≤ j) : n.testBit j = false :=
  Nat.testBit_lt_two_pow (Nat.lt_of_lt_of_le small (Nat.pow_le_pow_right (by omega) high))

theorem getOpcode_instrABC (o : OpCode) (a b c : Int) : getOpcode (instrABC o a b c) = o.toNat := by
  rw [getOpcode, instrABC, createABC, getField_ofNat _ _ _ (by decide)]
  apply Nat.eq_of_testBit_eq
  intro j
  simp only [posOp, posA, posB, posC, sizeOp, sizeA, sizeC, Nat.testBit_mod_two_pow, Nat.testBit_shiftRight, Nat.testBit_or,
    Nat.testBit_shiftLeft]
  by_cases low : j < 6
  · simp [low, show ¬ 6 ≤ j by omega, show ¬ 23 ≤ j by omega, show ¬ 14 ≤ j by omega]
  · simp [low, testBit_of_lt (toNat_lt o) (Nat.le_of_not_lt low)]

theorem getOpcode_instrABx (o : OpCode) (a bc : Int) : getOpcode (instrABx o a bc) = o.toNat := by
  rw [getOpcode, instrABx, createABx, getField_ofNat _ _ _ (by decide)]
  apply Nat.eq_of_testBit_eq
  intro j
  simp only [posOp, posA, posBx, posC, sizeOp, sizeA, Nat.testBit_mod_two_pow, Nat.testBit_shiftRight, Nat.testBit_or,
    Nat.testBit_shiftLeft]
  by_cases low : j < 6
  · simp [low, show ¬ 6 ≤ j by omega, show ¬ 14 ≤ j by omega]
  · simp [low, testBit_of_lt (toNat_lt o) (Nat.le_of_not_lt low)]

@[simp] theorem opcode?_instrABC (o : OpCode) (a b c : Int) : opcode? (instrABC o a b c) = some o := by
  rw [opcode?, getOpcode_instrABC, ofNat?_toNat]

@[simp] theorem opcode?_instrABx (o : OpCode) (a bc : Int) : opcode? (instrABx o a bc) = some o := by
  rw [opcode?, getOpcode_instrABx, ofNat?_toNat]

theorem castInstruction_natCast {n : Nat} (small : n < 2 ^ 32) : castInstruction n = n := by
  simp only [castInstruction]
  omega

end Gafq.Code
