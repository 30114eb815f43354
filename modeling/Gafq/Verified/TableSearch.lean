import Gafq.Table
import Gafq.Base.Scatter

/-! # The invariant of tables, and what a search finds

`Arranged` is the invariant that the comment at the top of `gtable.c` alludes to.  Every key is
on the chain that starts at its main position; a position that is the main position of some key
holds a key at home; keys are distinct and stay out of the range of the array part.  Under it the
chains no longer matter: `getSlot` finds the one node with an equal key.
-/

namespace Gafq

open Base

variable {N : Type} [GafqNumber N]

/-- A value that can be a key. -/
structure IsKey (key : TValue N) : Prop where
  ne_nil : key ≠ .nil
  self : rawequalObj key key = true

theorem IsKey.of_rawequal {a b : TValue N} (key : IsKey b) (equal : rawequalObj a b = true) : IsKey a where
  ne_nil := by
    rintro rfl
    obtain ⟨notNil, -⟩ := key
    cases b <;> simp_all [rawequalObj]
  self := rawequalObj_trans equal (rawequalObj_symm equal)

/-! ## Integer keys -/

theorem arrayindex_castNum {k : Int} (inInt : InInt k) : arrayindex (.number (castNum k) : TValue N) = k := by
  have exact : number2int (castNum k : N) = k := GafqNumber.number2int_of_eq inInt (GafqNumber.castNum_self inInt)
  simp [arrayindex, exact, GafqNumber.castNum_self inInt]

/-- A key with a positive index is equal to that index. -/
theorem rawequal_of_arrayindex {key : TValue N} {k : Int} (positive : 1 ≤ k) (index : arrayindex key = k) :
    rawequalObj (.number (castNum k)) key = true := by
  unfold arrayindex at index
  split at index
  · split at index
    · subst index
      assumption
    · omega
  · omega

theorem arrayindex_inInt (key : TValue N) : InInt (arrayindex key) := by
  unfold arrayindex
  split
  · split
    · exact GafqNumber.number2int_inInt _
    · exact ⟨by decide, by decide⟩
  · exact ⟨by decide, by decide⟩

theorem arrayindex_of_rawequal {key : TValue N} {k : Int} (inInt : InInt k)
    (equal : rawequalObj (.number (castNum k)) key = true) : arrayindex key = k := by
  cases key with
  | number n =>
    have exact : number2int n = k := GafqNumber.number2int_of_eq inInt equal
    have same : numeq (castNum k) n = true := equal
    simp [arrayindex, exact, same]
  | nil | boolean | lightuserdata | string | object | deadkey => simp [rawequalObj] at equal

/-- Equal keys have the same index. -/
theorem arrayindex_congr {a b : TValue N} (equal : rawequalObj a b = true) : arrayindex a = arrayindex b := by
  have oneWay : ∀ {a b : TValue N}, rawequalObj a b = true → 1 ≤ arrayindex a → arrayindex b = arrayindex a := by
    intro a b equal positive
    exact arrayindex_of_rawequal (arrayindex_inInt a) (rawequalObj_trans (rawequal_of_arrayindex positive rfl) equal)
  cases a with
  | number m =>
    cases b with
    | number n =>
      have equal' : numeq m n = true := equal
      -- both tests have the same outcome, and then the converted values agree
      by_cases first : numeq (castNum (number2int m)) m = true
      · have second : number2int n = number2int m :=
          GafqNumber.number2int_of_eq (GafqNumber.number2int_inInt m) (GafqNumber.numeq_trans first equal')
        have also : numeq (castNum (number2int m)) n = true := GafqNumber.numeq_trans first equal'
        simp [arrayindex, first, second, also]
      · by_cases second : numeq (castNum (number2int n)) n = true
        · have back := GafqNumber.numeq_trans second (GafqNumber.numeq_symm equal')
          rw [GafqNumber.number2int_of_eq (GafqNumber.number2int_inInt n) back] at first
          exact absurd back first
        · simp [arrayindex, first, second]
    | nil | boolean | lightuserdata | string | object | deadkey => simp [rawequalObj] at equal
  | nil | boolean | lightuserdata | string | object | deadkey =>
    cases b <;> simp_all [rawequalObj, arrayindex]

namespace Table

variable {bound : Nat} {mp : MainPosition N} {t : Table N} {key : TValue N}

/-- The key belongs to the array part. -/
def InArray (t : Table N) (key : TValue N) : Prop := 1 ≤ arrayindex key ∧ arrayindex key ≤ t.sizearray

instance (t : Table N) (key : TValue N) : Decidable (t.InArray key) := by
  unfold InArray; infer_instance

/-! ## The invariant -/

/-- The key at each position. -/
def keys (t : Table N) (i : Nat) : TValue N := (t.node i).key

/-- Keys and their main positions in a node vector of the size of `t`'s. -/
def hashing (mp : MainPosition N) (t : Table N) : Hashing (TValue N) where
  nil := .nil
  equal := rawequalObj
  size := t.sizenode
  pos := mp.pos t.lsizenode
  equal_symm := rawequalObj_symm
  equal_trans := rawequalObj_trans
  pos_lt := mp.pos_lt t.lsizenode
  pos_congr := mp.pos_congr t.lsizenode

structure Arranged (bound : Nat) (mp : MainPosition N) (t : Table N) : Prop where
  scatter : Scatter (t.hashing mp) t.keys t.next
  unused : ∀ {i}, t.keys i = .nil → (t.node i).val = .nil
  isKey : ∀ {i}, t.keys i ≠ .nil → IsKey (t.keys i)
  apart : ∀ {i}, t.keys i ≠ .nil → ¬ t.InArray (t.keys i)
  lastfree_le : t.lastfree ≤ t.sizenode
  used : t.isDummy = false → ∀ {i : Nat}, t.lastfree ≤ i → i < t.sizenode → t.keys i ≠ .nil
  dummy : t.isDummy = true → t.lsizenode = 0 ∧ t.lastfree ≤ 0 ∧ ∀ i, t.keys i = .nil
  sizearray_le : t.sizearray ≤ bound

/-- The array part is not larger than a rehash makes it. -/
abbrev WellFormed (mp : MainPosition N) (t : Table N) : Prop := Arranged maxASize mp t

/-! ## Search -/

theorem rawequalObj_nil (notNil : key ≠ .nil) : rawequalObj .nil key = false := by
  cases key <;> simp_all [rawequalObj]

theorem Arranged.search_node (wf : Arranged bound mp t) {i : Nat} (present : t.keys i ≠ .nil)
    (equal : rawequalObj (t.keys i) key = true) :
    t.search (rawequalObj · key) (mp.pos t.lsizenode key) = .node i := by
  have notNil : key ≠ .nil := ((wf.isKey present).of_rawequal (rawequalObj_symm equal)).ne_nil
  have found := wf.scatter.walk_present present (rawequalObj_nil notNil) equal
  unfold search
  rw [show walk t.next (fun i => rawequalObj (t.node i).key key) t.sizenode (mp.pos t.lsizenode key) = some i
    from found]

theorem Arranged.search_none (wf : Arranged bound mp t) (absent : ∀ i, rawequalObj (t.keys i) key = false) :
    t.search (rawequalObj · key) (mp.pos t.lsizenode key) = .nilobject := by
  unfold search
  rw [show walk t.next (fun i => rawequalObj (t.node i).key key) t.sizenode (mp.pos t.lsizenode key) = none
    from wf.scatter.walk_absent absent]

/-- The three search functions are one search. -/
theorem getSlot_eq (t : Table N) (notNil : key ≠ .nil) :
    t.getSlot mp key = if t.InArray key then .array (arrayindex key - 1).toNat
      else t.search (rawequalObj · key) (mp.pos t.lsizenode key) := by
  cases key with
  | nil => exact absurd rfl notNil
  | number n =>
    by_cases isInt : numeq (castNum (number2int n)) n = true
    · have tests : TValue.isNumber (castNum (number2int n)) = (rawequalObj · (.number n : TValue N)) := by
        funext other
        cases other with
        | number m =>
          rw [Bool.eq_iff_iff]
          exact ⟨fun same => GafqNumber.numeq_trans same isInt,
            fun same => GafqNumber.numeq_trans same (GafqNumber.numeq_symm isInt)⟩
        | nil | boolean | lightuserdata | string | object | deadkey => rfl
      have start : mp.pos t.lsizenode (.number (castNum (number2int n))) = mp.pos t.lsizenode (.number n) :=
        mp.pos_congr t.lsizenode isInt
      simp only [getSlot, isInt, if_true, getnum, InArray, arrayindex, tests, start]
    · have outside : ¬ t.InArray (.number n) := by
        simp [InArray, arrayindex, isInt]
      simp only [getSlot, isInt, if_false, outside, Bool.false_eq_true]
  | string s =>
    have tests : TValue.isString s = (rawequalObj · (.string s : TValue N)) := by
      funext other
      cases other <;> rfl
    have outside : ¬ t.InArray (.string s) := by simp [InArray, arrayindex]
    simp only [getSlot, getstr, tests, outside, if_false]
  | boolean | lightuserdata | object | deadkey =>
    simp [getSlot, InArray, arrayindex]

theorem getnum_eq_getSlot (t : Table N) {k : Int} {n : N} (inInt : InInt k) (equal : numeq (castNum k) n = true) :
    t.getnum mp k = t.getSlot mp (.number n) := by
  have exact : number2int n = k := GafqNumber.number2int_of_eq inInt equal
  simp [getSlot, exact, equal]

/-- What `gafqH_get` finds: the value behind the slot. -/
def value (mp : MainPosition N) (t : Table N) (key : TValue N) : TValue N := t.read (t.getSlot mp key)

/-- The hash part holds the value under exactly this key. -/
def Entry (t : Table N) (key v : TValue N) : Prop :=
  ∃ i, t.keys i = key ∧ (t.node i).val = v ∧ key ≠ .nil ∧ v ≠ .nil

theorem value_of_inArray (inArray : t.InArray key) : t.value mp key = t.array (arrayindex key - 1).toNat := by
  have notNil : key ≠ .nil := by
    rintro rfl
    simp [InArray, arrayindex] at inArray
  rw [value, getSlot_eq t notNil, if_pos inArray]
  rfl

theorem Arranged.value_node (wf : Arranged bound mp t) {i : Nat} (present : t.keys i ≠ .nil)
    (equal : rawequalObj (t.keys i) key = true) : t.value mp key = (t.node i).val := by
  have notNil : key ≠ .nil := ((wf.isKey present).of_rawequal (rawequalObj_symm equal)).ne_nil
  have outside : ¬ t.InArray key := by
    unfold InArray
    rw [← arrayindex_congr equal]
    exact wf.apart present
  rw [value, getSlot_eq t notNil, if_neg outside, wf.search_node present equal]
  rfl

theorem Arranged.value_absent (wf : Arranged bound mp t) (outside : ¬ t.InArray key)
    (absent : ∀ i, t.keys i ≠ .nil → rawequalObj (t.keys i) key = false) : t.value mp key = .nil := by
  by_cases isNil : key = .nil
  · subst isNil
    rfl
  · have everywhere : ∀ i, rawequalObj (t.keys i) key = false := by
      intro i
      by_cases free : t.keys i = .nil
      · rw [free]
        exact rawequalObj_nil isNil
      · exact absent i free
    rw [value, getSlot_eq t isNil, if_neg outside, wf.search_none everywhere]
    rfl

/-- Outside the array part the values are those of the entries. -/
theorem Arranged.value_eq_iff (wf : Arranged bound mp t) {v : TValue N} (outside : ¬ t.InArray key) (notNil : v ≠ .nil) :
    t.value mp key = v ↔ ∃ key', rawequalObj key' key = true ∧ t.Entry key' v := by
  constructor
  · intro found
    by_contra none
    apply notNil
    rw [← found]
    by_cases present : ∃ i, t.keys i ≠ .nil ∧ rawequalObj (t.keys i) key = true
    · obtain ⟨i, present, equal⟩ := present
      have here := wf.value_node present equal
      rw [found] at here
      exact absurd ⟨_, equal, i, rfl, here.symm, present, notNil⟩ none
    · exact wf.value_absent outside fun i used => by
        simpa using fun equal => present ⟨i, used, equal⟩
  · rintro ⟨key', equal, i, rfl, rfl, used, -⟩
    exact wf.value_node used equal

/-- Tables with the same array part and the same entries have the same contents. -/
theorem value_congr {t' : Table N} (wf : Arranged bound mp t) (wf' : Arranged bound mp t')
    (size : t'.sizearray = t.sizearray) (array : t'.array = t.array)
    (entries : ∀ key v, t'.Entry key v ↔ t.Entry key v) (key : TValue N) : t'.value mp key = t.value mp key := by
  by_cases inside : t.InArray key
  · have inside' : t'.InArray key := by
      unfold InArray
      rw [size]
      exact inside
    rw [value_of_inArray inside, value_of_inArray inside', array]
  · have outside' : ¬ t'.InArray key := by
      unfold InArray
      rw [size]
      exact inside
    by_cases nothing : t.value mp key = .nil
    · by_contra other
      rw [nothing] at other
      obtain ⟨key', equal, entry⟩ := (wf'.value_eq_iff outside' other).1 rfl
      have := (wf.value_eq_iff inside other).2 ⟨key', equal, (entries key' _).1 entry⟩
      exact other (this.symm.trans nothing)
    · obtain ⟨key', equal, entry⟩ := (wf.value_eq_iff inside nothing).1 rfl
      exact (wf'.value_eq_iff outside' nothing).2 ⟨key', equal, (entries key' _).2 entry⟩

end Table

end Gafq
