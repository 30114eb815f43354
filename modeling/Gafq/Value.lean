import Mathlib

/-! # Values

The tagged values of `gobject.h` and the generic operations of `gobject.c` on them.  An object is
its address; strings are interned, so a string is equal to another one when their addresses are.
The type of numbers is a parameter with what the interpreter relies on.
-/

namespace Gafq

/-- A C `int`. -/
def InInt (k : Int) : Prop := -2 ^ 31 ≤ k ∧ k < 2 ^ 31

instance (k : Int) : Decidable (InInt k) := by
  unfold InInt; infer_instance

theorem inInt_one : InInt 1 := by decide

/-- `gafq_Number`.  Equality need not be reflexive; the conversion to an integer is exact on
numbers that are equal to an `int`. -/
class GafqNumber (N : Type) where
  /-- `gafqi_numeq` -/
  numeq : N → N → Bool
  /-- `cast_num` of an `int` -/
  castNum : Int → N
  /-- `gafq_number2int` -/
  number2int : N → Int
  numeq_symm : ∀ {a b}, numeq a b = true → numeq b a = true
  numeq_trans : ∀ {a b c}, numeq a b = true → numeq b c = true → numeq a c = true
  castNum_self : ∀ {k}, InInt k → numeq (castNum k) (castNum k) = true
  number2int_of_eq : ∀ {k n}, InInt k → numeq (castNum k) n = true → number2int n = k
  number2int_inInt : ∀ n, InInt (number2int n)

export GafqNumber (numeq castNum number2int)

/-- The types of collectable objects other than strings.  A prototype is a value only while a chunk
is being loaded or compiled. -/
inductive ObjectType where
  | table | function | userdata | thread | proto
deriving DecidableEq, Repr

inductive TValue (N : Type) where
  | nil
  | boolean (b : Bool)
  | lightuserdata (p : Nat)
  | number (n : N)
  | string (s : Nat)
  | object (tt : ObjectType) (o : Nat)
  /-- the key of an entry whose key has been collected -/
  | deadkey (o : Nat)
deriving DecidableEq, Repr, Inhabited

namespace TValue

variable {N : Type}

/-- `ttisnil`. -/
def isNil : TValue N → Bool
  | .nil => true
  | _ => false

@[simp] theorem isNil_iff {v : TValue N} : v.isNil = true ↔ v = .nil := by
  cases v <;> simp [isNil]

@[simp] theorem isNil_eq_false {v : TValue N} : v.isNil = false ↔ v ≠ .nil := by
  cases v <;> simp [isNil]

end TValue

/-- `removeentry` on a key. -/
def deadkey {N : Type} (key : TValue N) : TValue N :=
  match key with
  | .string a | .object _ a => .deadkey a
  | key => key

section Rawequal

variable {N : Type} [GafqNumber N]

/-- `gafqO_rawequalObj`. -/
def rawequalObj : TValue N → TValue N → Bool
  | .nil, .nil => true
  | .number a, .number b => numeq a b
  | .boolean a, .boolean b => a == b
  | .lightuserdata a, .lightuserdata b => a == b
  | .string a, .string b => a == b
  | .object s a, .object t b => s == t && a == b
  | .deadkey a, .deadkey b => a == b
  | _, _ => false

theorem rawequalObj_symm {a b : TValue N} (equal : rawequalObj a b = true) : rawequalObj b a = true := by
  cases a <;> cases b <;> simp_all [rawequalObj]
  exact GafqNumber.numeq_symm equal

theorem rawequalObj_trans {a b c : TValue N} (first : rawequalObj a b = true) (second : rawequalObj b c = true) :
    rawequalObj a c = true := by
  cases a <;> cases b <;> cases c <;> simp_all [rawequalObj]
  exact GafqNumber.numeq_trans first second

theorem rawequalObj_comm (a b : TValue N) : rawequalObj a b = rawequalObj b a := by
  rw [Bool.eq_iff_iff]
  exact ⟨rawequalObj_symm, rawequalObj_symm⟩

end Rawequal

/-! ## Logarithms -/

/-- The table `log_2` of `gafqO_log2`: `b + 1` for the `2^b` numbers of `b + 1` bits. -/
def log2Table : List Nat := 0 :: (List.range 8).flatMap fun b => List.replicate (2 ^ b) (b + 1)

/-- The loop of `gafqO_log2`; each iteration makes `x` smaller. -/
def log2Loop : Nat → Int → Nat → Int
  | fuel + 1, l, x => if 256 ≤ x then log2Loop fuel (l + 8) (x / 256) else l + log2Table.getD x 0
  | 0, l, x => l + log2Table.getD x 0

/-- `gafqO_log2`: the logarithm rounded down, `-1` for zero. -/
def log2 (x : Nat) : Int := log2Loop x (-1) x

/-- `ceillog2`. -/
def ceillog2 (x : Nat) : Nat := (log2 (x - 1) + 1).toNat

theorem log2Table_getD {x : Nat} (small : x < 256) : log2Table.getD x 0 = if x = 0 then 0 else Nat.log2 x + 1 := by
  revert x; decide +kernel

theorem log2Loop_eq {fuel x : Nat} (l : Int) (enough : x ≤ fuel) :
    log2Loop fuel l x = l + ((if x = 0 then 0 else Nat.log2 x + 1 : Nat) : Int) := by
  induction fuel generalizing l x with
  | zero =>
    have : x = 0 := by omega
    subst this
    rfl
  | succ fuel inductionHypothesis =>
    unfold log2Loop
    split
    · rename_i large
      rw [inductionHypothesis (l + 8) (by omega)]
      have shifted : Nat.log2 x = Nat.log2 (x / 256) + 8 := by
        have positive : x / 256 ≠ 0 := by omega
        rw [show (256 : Nat) = 2 ^ 8 from rfl, Nat.log2_eq_log_two, Nat.log2_eq_log_two, Nat.log_div_base_pow]
        have : 8 ≤ Nat.log 2 x := Nat.le_log_of_pow_le (by decide) (by omega)
        omega
      have : x ≠ 0 := by omega
      have : x / 256 ≠ 0 := by omega
      simp only [*, if_false]
      push_cast
      omega
    · rename_i small
      rw [log2Table_getD (by omega)]

theorem ceillog2_eq (x : Nat) : ceillog2 x = if x ≤ 1 then 0 else Nat.log2 (x - 1) + 1 := by
  unfold ceillog2 log2
  rw [log2Loop_eq _ (le_refl _)]
  split <;> split <;> omega

/-- `ceillog2` is the logarithm rounded up. -/
theorem ceillog2_le_iff {x i : Nat} (positive : 1 ≤ x) : ceillog2 x ≤ i ↔ x ≤ 2 ^ i := by
  rw [ceillog2_eq]
  split
  · have : 0 < 2 ^ i := Nat.pow_pos (by decide)
    omega
  · have : Nat.log2 (x - 1) < i ↔ x - 1 < 2 ^ i := Nat.log2_lt (by omega)
    omega

theorem le_two_pow_ceillog2 (x : Nat) : x ≤ 2 ^ ceillog2 x := by
  by_cases positive : 1 ≤ x
  · exact (ceillog2_le_iff positive).1 (le_refl _)
  · have : 0 < 2 ^ ceillog2 x := Nat.pow_pos (by decide)
    omega

end Gafq
