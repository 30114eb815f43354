import Gafq.Verified.TableResize

/-! # Tables are maps

A table refines the map from keys to the values last stored under them, through any sequence of
insertions, moves of colliding nodes and rehashes.
-/

namespace Gafq

open Base

variable {N : Type} [GafqNumber N]

namespace Table

variable {mp : MainPosition N} {t t' : Table N} {key : TValue N}

/-! ## `newkey` with and without a rehash -/

/-- A place for the key, in a table with the same contents. -/
structure Provides (mp : MainPosition N) (t : Table N) (key : TValue N) (slot : Slot) (t' : Table N) : Prop where
  wf : WellFormed mp t'
  slotFor : SlotFor t' key slot
  value : ∀ k, t'.value mp k = t.value mp k

/-- An insertion that had to rehash and failed: `t'` is what the failed `resize` left behind. -/
def FailsInResize (mp : MainPosition N) (mem : Memory) (t : Table N) (key : TValue N) (e : TableError)
    (t' : Table N) : Prop :=
  ∃ (lastfree : Int) (flags : UInt8),
    ResizeFails mp mem { t with lastfree, flags } (t.rehashSizes key).1 (t.rehashSizes key).2 e t'

theorem hashInts_congr (t : Table N) (lastfree : Int) (flags : UInt8) (i : Nat) :
    ({ t with lastfree, flags } : Table N).hashInts i = t.hashInts i := by
  induction i with
  | zero => rfl
  | succ i inductionHypothesis => rw [hashInts, hashInts, inductionHypothesis]

omit [GafqNumber N] in
theorem hashUsed_congr (t : Table N) (lastfree : Int) (flags : UInt8) (i : Nat) :
    ({ t with lastfree, flags } : Table N).hashUsed i = t.hashUsed i := by
  induction i with
  | zero => rfl
  | succ i inductionHypothesis => rw [hashUsed, hashUsed, inductionHypothesis]

theorem rehashSizes_congr (small : t.sizearray ≤ maxASize) (lastfree : Int) (flags : UInt8) :
    ({ t with lastfree, flags } : Table N).rehashSizes key = t.rehashSizes key := by
  have ints : ({ t with lastfree, flags } : Table N).intKeys key = t.intKeys key := by
    rw [intKeys, hashInts_congr]
    rfl
  rw [rehashSizes_eq small, @rehashSizes_eq _ _ { t with lastfree, flags } small, ints, hashUsed_congr]
  rfl

theorem FailsInResize.congr {mem : Memory} {e : TableError} {lastfree : Int} {flags : UInt8}
    (small : t.sizearray ≤ maxASize) (failed : FailsInResize mp mem { t with lastfree, flags } key e t') :
    FailsInResize mp mem t key e t' := by
  obtain ⟨lastfree', flags', fails⟩ := failed
  rw [rehashSizes_congr small] at fails
  exact ⟨lastfree', flags', fails⟩

/-- An insertion provides a place, or it fails inside `resize`. -/
def Inserts (mp : MainPosition N) (mem : Memory) (insertion : TableM N Slot) (t : Table N) (key : TValue N) : Prop :=
  (∃ slot t', insertion t = .ok slot t' ∧ Provides mp t key slot t') ∨
  ∃ e t', insertion t = .error e t' ∧ Fresh t key ∧ FailsInResize mp mem t key e t'

theorem Places.provides (wf : WellFormed mp t) {slot : Slot} (placed : Places maxASize mp t key slot t') :
    Provides mp t key slot t' :=
  ⟨placed.wf, placed.slotFor, value_congr wf placed.wf placed.sizearray placed.array placed.entries⟩

theorem setFlags_value (t : Table N) (flags : UInt8) (k : TValue N) :
    ({ t with flags } : Table N).value mp k = t.value mp k := by
  rw [value, setFlags_getSlot]
  rfl

theorem setFields_value (t : Table N) (lastfree : Int) (flags : UInt8) (k : TValue N) :
    ({ t with lastfree, flags } : Table N).value mp k = t.value mp k := by
  rw [value, value, @getSlot_congr _ _ mp t { t with lastfree, flags } rfl rfl rfl rfl k]
  rfl

/-- Moving `lastfree` down in a full table changes nothing. -/
theorem WellFormed.setLastfree (wf : WellFormed mp t) (full : t.room = 0) {lastfree : Int} (low : lastfree ≤ t.lastfree)
    (nonPositive : lastfree ≤ 0) : WellFormed mp { t with lastfree } where
  scatter := wf.scatter
  unused := wf.unused
  isKey := wf.isKey
  apart := wf.apart
  lastfree_le := low.trans wf.lastfree_le
  used notDummy i _ inside := by
    intro free
    rw [room, show t.isDummy = false from notDummy] at full
    simp only [Bool.false_eq_true, if_false, Finset.card_eq_zero, Finset.filter_eq_empty_iff, Finset.mem_range,
      TValue.isNil_iff] at full
    exact full inside free
  dummy isDummy := ⟨(wf.dummy isDummy).1, nonPositive, (wf.dummy isDummy).2.2⟩
  sizearray_le := wf.sizearray_le

/-- One rehash makes room for the new key, so neither the loops of `resize` nor the second
insertion rehash again. -/
theorem WellFormed.rehashAndSet_inserts (wf : WellFormed mp t) (fresh : Fresh t key) (mem : Memory) (depth : Nat) :
    Inserts mp mem (rehashAndSet mp mem (depth + 1) key) t key := by
  obtain ⟨-, small, nodes⟩ := wf.rehashSizes_spec fresh
  generalize grow : rehashAndSet mp mem depth = again
  have started : rehashAndSet mp mem (depth + 1) key t =
      (resizeWith mp again mem (t.rehashSizes key).1 (t.rehashSizes key).2 >>= fun _ => setWith mp again key) t := by
    rw [← grow]
    rfl
  have enough : t.resizeNeed (t.rehashSizes key).1 + keyNeed (t.rehashSizes key).1 key ≤ (t.rehashSizes key).2 := by
    rw [resizeNeed]
    omega
  unfold Inserts
  rw [started]
  cases @Arranged.resize_spec _ _ _ mp again t wf (by decide) mem _ _ _ small enough with
  | inr failed =>
    obtain ⟨e, t', ran, fails⟩ := failed
    exact .inr ⟨e, t', bind_of_error ran, fresh, t.lastfree, t.flags, fails⟩
  | inl resized =>
    obtain ⟨t₁, ran, wf₁, size, room, values, -⟩ := resized
    obtain ⟨slot, t', ran', placed⟩ := wf₁.setWith_places fresh.isKey (canTake_of_room size room) again
    have provided := placed.provides (wf₁.setFlags 0)
    refine .inl ⟨slot, t', (bind_of_ok ran).trans ran', provided.wf, provided.slotFor, fun k => ?_⟩
    rw [provided.value k, setFlags_value, values k]

theorem WellFormed.newkey_inserts (wf : WellFormed mp t) (fresh : Fresh t key) (mem : Memory) (depth : Nat) :
    Inserts mp mem (newkeyWith mp (rehashAndSet mp mem (depth + 1)) key) t key := by
  by_cases room : 0 < t.room
  · obtain ⟨slot, t', ran, placed⟩ := wf.newkey_places fresh room (rehashAndSet mp mem (depth + 1))
    exact .inl ⟨slot, t', ran, placed.provides wf⟩
  · unfold Inserts newkeyWith
    by_cases taken : (!(t.node (mp.pos t.lsizenode key)).val.isNil || t.isDummy) = true
    · obtain ⟨lastfree, none, low, nonPositive⟩ := getfreepos_none (by omega) wf
      have wf' := wf.setLastfree (by omega) low nonPositive
      simp only [taken, if_true, none]
      cases wf'.rehashAndSet_inserts ⟨fresh.isKey, fresh.absent, fresh.outside⟩ mem depth with
      | inr failed =>
        obtain ⟨e, t', ran, -, fails⟩ := failed
        exact .inr ⟨e, t', ran, fresh, @FailsInResize.congr _ _ mp t t' key mem e lastfree t.flags wf.sizearray_le fails⟩
      | inl provided =>
        obtain ⟨slot, t', ran, provided⟩ := provided
        refine .inl ⟨slot, t', ran, provided.wf, provided.slotFor, fun k => ?_⟩
        rw [provided.value k, value, value, @getSlot_congr _ _ mp t { t with lastfree } rfl rfl rfl rfl k]
        rfl
    · simp only [taken, if_false, Bool.false_eq_true]
      simp only [Bool.or_eq_true, Bool.not_eq_true', TValue.isNil_eq_false, not_or, not_not, Bool.not_eq_true] at taken
      exact .inl ⟨_, _, rfl, (wf.setKey_places fresh taken.2 taken.1).provides wf⟩

/-- The common part of the three set functions. -/
theorem WellFormed.get_or_newkey_inserts (wf : WellFormed mp t) (isKey : IsKey key) (mem : Memory) (depth : Nat) :
    Inserts mp mem (fun t => if t.getSlot mp key ≠ .nilobject then .ok (t.getSlot mp key) t
      else newkeyWith mp (rehashAndSet mp mem (depth + 1)) key t) t key := by
  unfold Inserts
  by_cases missing : t.getSlot mp key = .nilobject
  · simp only [missing, ne_eq, not_true_eq_false, if_false]
    exact wf.newkey_inserts (wf.fresh_of_getSlot isKey missing) mem depth
  · simp only [ne_eq, missing, not_false_eq_true, if_true]
    exact .inl ⟨_, _, rfl, wf, wf.slotFor_of_getSlot isKey missing, fun _ => rfl⟩

theorem WellFormed.setWith_inserts (wf : WellFormed mp t) (isKey : IsKey key) (mem : Memory) (depth : Nat) :
    Inserts mp mem (setWith mp (rehashAndSet mp mem (depth + 1)) key) t key := by
  have started : WellFormed mp { t with flags := 0 } := wf.setFlags 0
  have inserted := started.get_or_newkey_inserts isKey mem depth
  simp only [Inserts, setFlags_getSlot] at inserted
  unfold Inserts
  rw [setWith_eq _ isKey]
  cases inserted with
  | inr failed =>
    obtain ⟨e, t', ran, fresh, fails⟩ := failed
    exact .inr ⟨e, t', ran, ⟨fresh.isKey, fresh.absent, fresh.outside⟩, fails.congr wf.sizearray_le⟩
  | inl provided =>
    obtain ⟨slot, t', ran, provided⟩ := provided
    refine .inl ⟨slot, t', ran, provided.wf, provided.slotFor, fun k => ?_⟩
    rw [provided.value k, setFlags_value]

theorem WellFormed.setnumWith_inserts (wf : WellFormed mp t) {k : Int} (inInt : InInt k) (mem : Memory) (depth : Nat) :
    Inserts mp mem (setnumWith mp (rehashAndSet mp mem (depth + 1)) k) t (.number (castNum k)) := by
  unfold Inserts setnumWith
  simp only [getnum_castNum t inInt]
  exact wf.get_or_newkey_inserts (isKey_castNum inInt) mem depth

theorem WellFormed.setSlot_inserts (wf : WellFormed mp t) (isKey : IsKey key) (mem : Memory) :
    Inserts mp mem (setSlot mp mem key) t key := wf.setWith_inserts isKey mem 0

theorem WellFormed.setnum_inserts (wf : WellFormed mp t) {k : Int} (inInt : InInt k) (mem : Memory) :
    Inserts mp mem (setnum mp mem k) t (.number (castNum k)) := wf.setnumWith_inserts inInt mem 0

theorem WellFormed.setstr_inserts (wf : WellFormed mp t) (s : Nat) (mem : Memory) :
    Inserts mp mem (setstr mp mem s) t (.string s) :=
  wf.get_or_newkey_inserts (isKey_string s) mem 0

/-! ## Runs -/

end Table

/-- A call of one of the set functions and the store through the pointer that it returns. -/
inductive TableOp (N : Type) where
  | set (key v : TValue N)
  | setnum (key : { k : Int // InInt k }) (v : TValue N)
  | setstr (key : Nat) (v : TValue N)

namespace TableOp

variable (mp : MainPosition N)

def key : TableOp N → TValue N
  | .set key _ => key
  | .setnum k _ => .number (castNum k.1)
  | .setstr s _ => .string s

omit [GafqNumber N] in
def stored : TableOp N → TValue N
  | .set _ v | .setnum _ v | .setstr _ v => v

def insertion (mem : Memory) : TableOp N → TableM N Slot
  | .set key _ => Table.setSlot mp mem key
  | .setnum k _ => Table.setnum mp mem k.1
  | .setstr s _ => Table.setstr mp mem s

/-- The operation with its store; an error about the key leaves the table as it is. -/
def run (t : Table N) (op : TableOp N) : Except TableError (Table N) :=
  match op.insertion mp {} t with
  | .ok slot t' => .ok (t'.write slot op.stored)
  | .error .indexNil t' | .error .indexNaN t' => .ok t'
  | .error e _ => .error e

end TableOp

/-- A new table and a sequence of stores into it. -/
def runTable (mp : MainPosition N) (narray nhash : Nat) (ops : List (TableOp N)) : Except TableError (Table N) :=
  match Table.new {} narray nhash with
  | .ok () t => ops.foldlM (TableOp.run mp) t
  | .error e _ => .error e

/-- The map that a table stands for: the value last stored under an equal key. -/
def lastStored (ops : List (TableOp N)) (key : TValue N) : TValue N :=
  ops.foldl (fun found op => if rawequalObj key op.key then op.stored else found) .nil

namespace Table

variable {mp : MainPosition N} {t : Table N}

theorem new_spec {narray nhash : Nat} (small : narray ≤ maxASize) :
    (∃ t : Table N, new {} narray nhash = .ok () t ∧ WellFormed mp t ∧ ∀ k, t.value mp k = .nil) ∨
    ∃ t : Table N, new {} narray nhash = .error .tableOverflow t := by
  have first : setarrayvector true narray (empty : Table N) = .ok () { empty with array := fun _ => .nil, sizearray := narray } := by
    rw [setarrayvector, if_pos rfl]
    simp [empty]
  have started : (new {} narray nhash : EStateM.Result TableError (Table N) Unit) =
      setnodevector true nhash { empty with array := fun _ => .nil, sizearray := narray } := bind_of_ok first
  rw [started]
  cases setnodevector_spec true nhash ({ empty with array := fun _ => .nil, sizearray := narray } : Table N) with
  | inr failed =>
    obtain ⟨e, ran, -, ⟨rfl, -⟩ | ⟨-, short⟩⟩ := failed
    · exact .inr ⟨_, ran⟩
    · cases short
  | inl done =>
    obtain ⟨t, ran, -, isEmpty, array, size, -⟩ := done
    have small' : t.sizearray ≤ maxASize := by
      rw [size]
      exact small
    refine .inl ⟨t, ran, isEmpty.arranged small' mp, fun k => ?_⟩
    rw [isEmpty.value_eq k, array]
    split <;> rfl

/-- A key that is not equal to itself is found nowhere. -/
theorem WellFormed.setSlot_isNaN (wf : WellFormed mp t) {n : N} (notSelf : numeq n n = false) (mem : Memory) :
    setSlot mp mem (.number n) t = .error .indexNaN { t with flags := 0 } := by
  have absent : ∀ i, rawequalObj (t.keys i) (.number n) = false := by
    intro i
    by_contra equal
    have self := rawequalObj_trans (rawequalObj_symm (by simpa using equal)) (by simpa using equal)
    simp [rawequalObj, notSelf] at self
  have outside : ¬ t.InArray (.number n) := by
    intro inside
    have equal := rawequal_of_arrayindex inside.1 rfl
    have self := rawequalObj_trans (rawequalObj_symm equal) equal
    simp [rawequalObj, notSelf] at self
  have missing : t.getSlot mp (.number n) = .nilobject := by
    rw [getSlot_eq t (by simp), if_neg outside, wf.search_none absent]
  simp [setSlot, setWith, missing, TValue.isNil, TValue.isNaN, notSelf]

/-- An operation inserts its key, or raises an error about it. -/
theorem WellFormed.insertion_cases (wf : WellFormed mp t) (op : TableOp N) (mem : Memory) :
    (IsKey op.key ∧ Inserts mp mem (op.insertion mp mem) t op.key) ∨
    (¬ IsKey op.key ∧ ∃ e, op.insertion mp mem t = .error e { t with flags := 0 } ∧ (e = .indexNil ∨ e = .indexNaN)) := by
  cases op with
  | setnum k v => exact .inl ⟨isKey_castNum k.2, wf.setnum_inserts k.2 mem⟩
  | setstr s v => exact .inl ⟨isKey_string s, wf.setstr_inserts s mem⟩
  | set key v =>
    by_cases isKey : IsKey key
    · exact .inl ⟨isKey, wf.setSlot_inserts isKey mem⟩
    · refine .inr ⟨isKey, ?_⟩
      cases key with
      | nil => exact ⟨.indexNil, rfl, .inl rfl⟩
      | number n =>
        have notSelf : numeq n n = false := by
          by_contra self
          exact isKey ⟨by simp, by simpa [rawequalObj] using self⟩
        exact ⟨.indexNaN, wf.setSlot_isNaN notSelf mem, .inr rfl⟩
      | boolean | lightuserdata | string | object | deadkey => exact absurd ⟨by simp, by simp [rawequalObj]⟩ isKey

/-- When all allocations succeed, an insertion provides a place unless the table is too large. -/
theorem Inserts.cases {insertion : TableM N Slot} {key : TValue N} (inserts : Inserts mp {} insertion t key) :
    (∃ slot t', insertion t = .ok slot t' ∧ Provides mp t key slot t') ∨ ∃ t', insertion t = .error .tableOverflow t' := by
  obtain provided | ⟨e, t', ran, -, lastfree, flags, fails⟩ := inserts
  · exact .inl provided
  · cases fails with
    | array _ short => cases short
    | nodes _ _ kind =>
      obtain ⟨rfl, -⟩ | ⟨-, short⟩ := kind
      · exact .inr ⟨_, ran⟩
      · cases short
    | shrink _ _ short => cases short

/-- One operation changes the value under keys equal to its own, and under no other. -/
theorem WellFormed.run_spec (wf : WellFormed mp t) (op : TableOp N) :
    op.run mp t = .error .tableOverflow ∨ ∃ t', op.run mp t = .ok t' ∧ WellFormed mp t' ∧
      ∀ k, IsKey k → t'.value mp k = if rawequalObj k op.key then op.stored else t.value mp k := by
  unfold TableOp.run
  obtain ⟨-, inserts⟩ | ⟨notKey, e, ran, kind⟩ := wf.insertion_cases op {}
  · obtain ⟨slot, t', ran, provided⟩ | ⟨t', ran⟩ := inserts.cases
    · rw [ran]
      refine .inr ⟨_, rfl, provided.wf.write provided.slotFor _, fun k _ => ?_⟩
      rw [provided.wf.write_value provided.slotFor, provided.value]
    · rw [ran]
      exact .inl rfl
  · rw [ran]
    refine .inr ⟨{ t with flags := 0 }, ?_, wf.setFlags 0, fun k isKey => ?_⟩
    · obtain rfl | rfl := kind <;> rfl
    · rw [setFlags_value, if_neg]
      intro equal
      exact notKey (isKey.of_rawequal (rawequalObj_symm equal))

theorem WellFormed.runs_spec (ops : List (TableOp N)) : ∀ {t : Table N} {found : TValue N → TValue N},
    WellFormed mp t → (∀ k, IsKey k → t.value mp k = found k) →
    ops.foldlM (TableOp.run mp) t = .error .tableOverflow ∨
    ∃ t', ops.foldlM (TableOp.run mp) t = .ok t' ∧ WellFormed mp t' ∧ ∀ k, IsKey k → t'.value mp k =
      ops.foldl (fun found op => if rawequalObj k op.key then op.stored else found) (found k) := by
  induction ops with
  | nil => exact fun {t found} wf values => .inr ⟨t, rfl, wf, values⟩
  | cons op ops inductionHypothesis =>
    intro t found wf values
    simp only [List.foldlM_cons, List.foldl_cons]
    cases wf.run_spec op with
    | inl overflow =>
      rw [overflow]
      exact .inl rfl
    | inr ran =>
      obtain ⟨t₁, ran, wf₁, values₁⟩ := ran
      rw [ran]
      refine @inductionHypothesis t₁ (fun k => if rawequalObj k op.key then op.stored else found k) wf₁ fun k isKey => ?_
      rw [values₁ k isKey, values k isKey]

/-- Through every sequence of stores into a new table, unless it grows too large, `gafqH_get` finds
under each key what was last stored under an equal one, and the special searches agree with it. -/
theorem runTable_refines (mp : MainPosition N) {narray : Nat} (nhash : Nat) (small : narray ≤ maxASize)
    (ops : List (TableOp N)) :
    runTable mp narray nhash ops = .error .tableOverflow ∨
    ∃ t, runTable mp narray nhash ops = .ok t ∧
      (∀ key : TValue N, key ≠ .nil → key.isNaN = false → t.read (t.getSlot mp key) = lastStored ops key) ∧
      (∀ (k : Int) (n : N), InInt k → numeq (castNum k) n = true →
        t.read (t.getnum mp k) = t.read (t.getSlot mp (.number n))) ∧
      ∀ s : Nat, t.read (t.getstr mp s) = t.read (t.getSlot mp (.string s)) := by
  unfold runTable
  cases @new_spec _ _ mp narray nhash small with
  | inr overflow =>
    obtain ⟨t, ran⟩ := overflow
    rw [ran]
    exact .inl rfl
  | inl created =>
    obtain ⟨t, ran, wf, values⟩ := created
    rw [ran]
    cases @WellFormed.runs_spec _ _ mp ops t (fun _ => .nil) wf fun k _ => values k with
    | inl overflow => exact .inl overflow
    | inr done =>
      obtain ⟨t', ran', -, values'⟩ := done
      refine .inr ⟨t', ran', fun key notNil notNaN => values' key ⟨notNil, ?_⟩, fun k n inInt equal => ?_, fun s => rfl⟩
      · cases key with
        | number n =>
          have self : numeq n n = true := by simpa [TValue.isNaN] using notNaN
          exact self
        | nil => exact absurd rfl notNil
        | boolean | lightuserdata | string | object | deadkey => simp [rawequalObj]
      · rw [getnum_eq_getSlot t' inInt equal]

end Table

/-! ## The source's main position -/

theorem hashmod_lt (l n : Nat) : hashmod l n < 2 ^ l := by
  unfold hashmod
  cases l with
  | zero => simp [Nat.mod_one]
  | succ l =>
    have positive : 0 < 2 ^ (l + 1) := Nat.pow_pos (by decide)
    have one : 1 < 2 ^ (l + 1) := Nat.one_lt_two_pow (by omega)
    have divisor : (2 ^ (l + 1) - 1) ||| 1 < 2 ^ (l + 1) := Nat.or_lt_two_pow (by omega) one
    have nonZero : 0 < (2 ^ (l + 1) - 1) ||| 1 := Nat.lt_of_lt_of_le (by decide) Nat.right_le_or
    exact (Nat.mod_lt n nonZero).trans divisor

/-- `mainposition` does not tell equal keys apart when equal numbers have equal words. -/
def sourcePosition (strhash address : Nat → Nat) (words : N → Nat)
    (respects : ∀ {a b}, numeq a b = true → words a = words b) : MainPosition N where
  pos := mainposition strhash address words
  pos_lt l key := by
    have positive : 0 < 2 ^ l := Nat.pow_pos (by decide)
    cases key with
    | number n =>
      simp only [mainposition]
      split
      · exact positive
      · exact hashmod_lt ..
    | string | boolean => exact Nat.mod_lt _ positive
    | lightuserdata | object | deadkey | nil => exact hashmod_lt ..
  pos_congr l {a b} equal := by
    cases a with
    | number m =>
      cases b with
      | number n =>
        have same : numeq m n = true := equal
        have zero : numeq m (castNum 0) = numeq n (castNum 0) := by
          rw [Bool.eq_iff_iff]
          exact ⟨GafqNumber.numeq_trans (GafqNumber.numeq_symm same), GafqNumber.numeq_trans same⟩
        simp only [mainposition, zero, respects same]
      | nil | boolean | lightuserdata | string | object | deadkey => simp [rawequalObj] at equal
    | nil | boolean | lightuserdata | string | object | deadkey =>
      cases b <;> simp_all [rawequalObj, mainposition]

/-- Integers as the numbers of an interpreter. -/
instance : GafqNumber Int where
  numeq a b := decide (a = b)
  castNum := id
  number2int n := if InInt n then n else 0
  numeq_symm h := by simpa using (of_decide_eq_true h).symm
  numeq_trans h h' := by simpa using (of_decide_eq_true h).trans (of_decide_eq_true h')
  castNum_self _ := by simp
  number2int_of_eq inInt h := by
    obtain rfl := of_decide_eq_true h
    exact if_pos inInt
  number2int_inInt n := by
    split
    · assumption
    · decide

/-- Main positions of integer keys by their absolute values. -/
def intPosition : MainPosition Int :=
  sourcePosition id id Int.natAbs fun h => congrArg Int.natAbs (of_decide_eq_true h)

/-- Stores under two keys, one of them twice. -/
def threeStores : List (TableOp Int) :=
  [.setnum ⟨1, inInt_one⟩ (.boolean false), .set (.number 2) (.boolean true), .set (.number 1) (.number 9)]

theorem runTable_refines_threeStores :
    ∃ t, runTable intPosition 2 0 threeStores = .ok t ∧ t.read (t.getSlot intPosition (.number 1)) = .number 9 := by
  cases Table.runTable_refines intPosition 0 (show 2 ≤ maxASize by decide) threeStores with
  | inl overflow =>
    have succeeds : (runTable intPosition 2 0 threeStores).isOk = true := by decide
    rw [overflow] at succeeds
    cases succeeds
  | inr done =>
    obtain ⟨t, ran, values, -⟩ := done
    exact ⟨t, ran, (values (.number 1) (by simp) (by decide)).trans (by decide)⟩

end Gafq
