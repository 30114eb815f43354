import Gafq.Verified.TableInsert

/-! # Storing through a slot

The pointer that `gafqH_set` returns belongs to the key: a value stored there is found under equal
keys and nowhere else.
-/

namespace Gafq

open Base

variable {N : Type} [GafqNumber N]

namespace Table

variable {bound : Nat} {mp : MainPosition N} {t t' : Table N} {key : TValue N}

/-! ## What a search depends on -/

theorem getSlot_congr (keys : t'.keys = t.keys) (next : t'.next = t.next) (lsizenode : t'.lsizenode = t.lsizenode)
    (sizearray : t'.sizearray = t.sizearray) (key : TValue N) : t'.getSlot mp key = t.getSlot mp key := by
  by_cases isNil : key = .nil
  · subst isNil
    rfl
  · have tests : (fun i => rawequalObj (t'.node i).key key) = fun i => rawequalObj (t.node i).key key := by
      funext i
      rw [show (t'.node i).key = (t.node i).key from congrFun keys i]
    rw [getSlot_eq t isNil, getSlot_eq t' isNil]
    simp only [InArray, sizearray, search, next, sizenode, lsizenode, tests]

omit [GafqNumber N] in
@[simp] theorem write_keys (t : Table N) (slot : Slot) (v : TValue N) : (t.write slot v).keys = t.keys := by
  cases slot with
  | node i =>
    funext j
    simp only [keys, write, Function.update_apply]
    split <;> simp [*]
  | array | nilobject => rfl

omit [GafqNumber N] in
@[simp] theorem write_next (t : Table N) (slot : Slot) (v : TValue N) : (t.write slot v).next = t.next := by
  cases slot with
  | node i =>
    funext j
    simp only [next, write, Function.update_apply]
    split <;> simp [*]
  | array | nilobject => rfl

omit [GafqNumber N] in
@[simp] theorem write_sizearray (t : Table N) (slot : Slot) (v : TValue N) :
    (t.write slot v).sizearray = t.sizearray := by
  cases slot <;> rfl

omit [GafqNumber N] in
@[simp] theorem write_lsizenode (t : Table N) (slot : Slot) (v : TValue N) :
    (t.write slot v).lsizenode = t.lsizenode := by
  cases slot <;> rfl

omit [GafqNumber N] in
@[simp] theorem write_isDummy (t : Table N) (slot : Slot) (v : TValue N) :
    (t.write slot v).isDummy = t.isDummy := by
  cases slot <;> rfl

omit [GafqNumber N] in
@[simp] theorem write_lastfree (t : Table N) (slot : Slot) (v : TValue N) :
    (t.write slot v).lastfree = t.lastfree := by
  cases slot <;> rfl

omit [GafqNumber N] in
@[simp] theorem write_room (t : Table N) (slot : Slot) (v : TValue N) : (t.write slot v).room = t.room := by
  simp only [room, sizenode, write_isDummy, write_lsizenode, write_keys]

theorem write_getSlot (t : Table N) (slot : Slot) (v : TValue N) (key : TValue N) :
    (t.write slot v).getSlot mp key = t.getSlot mp key :=
  getSlot_congr (by simp) (by simp) (by simp) (by simp) key

/-- What the invariant depends on. -/
theorem Arranged.congr (wf : Arranged bound mp t) (keys : t'.keys = t.keys) (next : t'.next = t.next)
    (lsizenode : t'.lsizenode = t.lsizenode) (sizearray : t'.sizearray = t.sizearray)
    (isDummy : t'.isDummy = t.isDummy) (lastfree : t'.lastfree = t.lastfree)
    (unused : ∀ {i}, t.keys i = .nil → (t'.node i).val = .nil) : Arranged bound mp t' := by
  have hashing : t'.hashing mp = t.hashing mp := by simp only [Table.hashing, sizenode, lsizenode]
  constructor
  · rw [hashing, keys, next]
    exact wf.scatter
  · rw [keys]
    exact unused
  · rw [keys]
    exact wf.isKey
  · rw [keys]
    intro i used
    rw [InArray, sizearray]
    exact wf.apart used
  · rw [sizenode, lsizenode, lastfree]
    exact wf.lastfree_le
  · rw [isDummy, sizenode, lsizenode, lastfree, keys]
    exact wf.used
  · rw [isDummy, lsizenode, lastfree, keys]
    exact wf.dummy
  · rw [sizearray]
    exact wf.sizearray_le

theorem Arranged.write (wf : Arranged bound mp t) {slot : Slot} (slotFor : SlotFor t key slot) (v : TValue N) :
    Arranged bound mp (t.write slot v) := by
  refine wf.congr (by simp) (by simp) (by simp) (by simp) (by simp) (by simp) fun {i} free => ?_
  cases slotFor with
  | array => exact wf.unused free
  | node used equal =>
    rename_i j
    have other : i ≠ j := by
      rintro rfl
      exact used free
    simp only [Table.write, Function.update_of_ne other]
    exact wf.unused free

/-- Equal keys find the same slot. -/
theorem getSlot_of_rawequal (t : Table N) {key' : TValue N} (isKey : IsKey key') (equal : rawequalObj key key' = true) :
    t.getSlot mp key = t.getSlot mp key' := by
  have tests : (rawequalObj · key) = (rawequalObj · key' : TValue N → Bool) := by
    funext other
    rw [Bool.eq_iff_iff]
    exact ⟨fun same => rawequalObj_trans same equal, fun same => rawequalObj_trans same (rawequalObj_symm equal)⟩
  have index := arrayindex_congr equal
  rw [getSlot_eq t (isKey.of_rawequal equal).ne_nil, getSlot_eq t isKey.ne_nil, tests, mp.pos_congr _ equal]
  simp only [InArray, index]

theorem value_of_rawequal (t : Table N) {key' : TValue N} (isKey : IsKey key') (equal : rawequalObj key key' = true) :
    t.value mp key = t.value mp key' := by
  rw [value, value, getSlot_of_rawequal t isKey equal]

/-- The slot of a key holds its value. -/
theorem Arranged.read_slotFor (wf : Arranged bound mp t) {slot : Slot} (slotFor : SlotFor t key slot) :
    t.read slot = t.value mp key := by
  cases slotFor with
  | array inArray => exact (value_of_inArray inArray).symm
  | node used equal => exact (wf.value_node used equal).symm

/-- After a store through the slot of a key, that value is found under equal keys only. -/
theorem Arranged.write_value (wf : Arranged bound mp t) {slot : Slot} (slotFor : SlotFor t key slot) (v k : TValue N) :
    (t.write slot v).value mp k = if rawequalObj k key then v else t.value mp k := by
  cases slotFor with
  | array inArray =>
    rw [value, write_getSlot]
    by_cases equal : rawequalObj k key = true
    · have index := arrayindex_congr equal
      have inside : t.InArray k := by
        rw [InArray, index]
        exact inArray
      have notNil : k ≠ .nil := by
        rintro rfl
        simp [InArray, arrayindex] at inside
      rw [if_pos equal, getSlot_eq t notNil, if_pos inside, index]
      simp [read, Table.write]
    · rw [if_neg equal]
      by_cases inside : t.InArray k
      · have notNil : k ≠ .nil := by
          rintro rfl
          simp [InArray, arrayindex] at inside
        have other : arrayindex k ≠ arrayindex key := by
          intro same
          apply equal
          have first := rawequal_of_arrayindex inside.1 rfl
          have second := rawequal_of_arrayindex inArray.1 rfl
          rw [same] at first
          exact rawequalObj_trans (rawequalObj_symm first) second
        have apart : (arrayindex k - 1).toNat ≠ (arrayindex key - 1).toNat := by
          have := inside.1
          have := inArray.1
          omega
        rw [value_of_inArray inside, getSlot_eq t notNil, if_pos inside]
        exact Function.update_of_ne apart _ _
      · by_cases isNil : k = .nil
        · subst isNil
          rfl
        · rw [value, getSlot_eq t isNil, if_neg inside]
          unfold search
          split <;> rfl
  | node used equal =>
    rename_i i
    have slotFor' : SlotFor t key (.node i) := .node used equal
    have wf' := wf.write slotFor' v
    by_cases same : rawequalObj k key = true
    · rw [if_pos same]
      have here : rawequalObj ((t.write (.node i) v).keys i) k = true := by
        rw [write_keys]
        exact rawequalObj_trans equal (rawequalObj_symm same)
      rw [wf'.value_node (by rwa [write_keys]) here]
      simp [Table.write]
    · rw [if_neg same]
      by_cases inside : t.InArray k
      · have inside' : (t.write (.node i) v).InArray k := inside
        rw [value_of_inArray inside, value_of_inArray inside']
        rfl
      · by_cases present : ∃ j, t.keys j ≠ .nil ∧ rawequalObj (t.keys j) k = true
        · obtain ⟨j, usedJ, equalJ⟩ := present
          have other : j ≠ i := by
            rintro rfl
            exact same (rawequalObj_trans (rawequalObj_symm equalJ) equal)
          rw [wf.value_node usedJ equalJ, wf'.value_node (by rwa [write_keys]) (by rwa [write_keys])]
          simp [Table.write, Function.update_of_ne other]
        · have absent : ∀ j, t.keys j ≠ .nil → rawequalObj (t.keys j) k = false := fun j usedJ => by
            simpa using fun equalJ => present ⟨j, usedJ, equalJ⟩
          rw [wf.value_absent inside absent, wf'.value_absent inside (by rwa [write_keys])]

/-! ## The set functions with room left -/

theorem Arranged.slotFor_of_getSlot (wf : Arranged bound mp t) (isKey : IsKey key)
    (found : t.getSlot mp key ≠ .nilobject) : SlotFor t key (t.getSlot mp key) := by
  rw [getSlot_eq t isKey.ne_nil] at found ⊢
  by_cases inside : t.InArray key
  · rw [if_pos inside]
    exact .array inside
  · rw [if_neg inside] at found ⊢
    by_cases present : ∃ i, t.keys i ≠ .nil ∧ rawequalObj (t.keys i) key = true
    · obtain ⟨i, used, equal⟩ := present
      rw [wf.search_node used equal]
      exact .node used equal
    · apply absurd (wf.search_none fun i => ?_) found
      by_cases free : t.keys i = .nil
      · rw [free]
        exact rawequalObj_nil isKey.ne_nil
      · simpa using fun equal => present ⟨i, free, equal⟩

theorem Arranged.fresh_of_getSlot (wf : Arranged bound mp t) (isKey : IsKey key)
    (missing : t.getSlot mp key = .nilobject) : Fresh t key := by
  rw [getSlot_eq t isKey.ne_nil] at missing
  split at missing
  · cases missing
  · rename_i outside
    refine ⟨isKey, fun i used => ?_, outside⟩
    by_contra equal
    rw [wf.search_node used (by simpa using equal)] at missing
    cases missing

theorem Places.refl (wf : Arranged bound mp t) {slot : Slot} (slotFor : SlotFor t key slot) : Places bound mp t key slot t :=
  ⟨wf, rfl, rfl, rfl, rfl, fun _ _ => Iff.rfl, slotFor, Nat.le_add_right ..⟩

/-- The table can take the key without a rehash. -/
def CanTake (mp : MainPosition N) (t : Table N) (key : TValue N) : Prop :=
  t.getSlot mp key = .nilobject → 0 < t.room

theorem canTake_of_inArray (inside : t.InArray key) : CanTake mp t key := by
  intro missing
  have notNil : key ≠ .nil := by
    rintro rfl
    simp [InArray, arrayindex] at inside
  rw [getSlot_eq t notNil, if_pos inside] at missing
  cases missing

/-- The common part of the set functions. -/
theorem Arranged.get_or_newkey (wf : Arranged bound mp t) (isKey : IsKey key) (canTake : CanTake mp t key)
    (grow : TValue N → TableM N Slot) :
    ∃ slot t', (if t.getSlot mp key ≠ .nilobject then .ok (t.getSlot mp key) t else newkeyWith mp grow key t) =
      (.ok slot t' : EStateM.Result TableError (Table N) Slot) ∧ Places bound mp t key slot t' := by
  by_cases missing : t.getSlot mp key = .nilobject
  · rw [if_neg (by simpa using missing)]
    exact wf.newkey_places (wf.fresh_of_getSlot isKey missing) (canTake missing) grow
  · rw [if_pos missing]
    exact ⟨_, _, rfl, .refl wf (wf.slotFor_of_getSlot isKey missing)⟩

theorem Arranged.setFlags (wf : Arranged bound mp t) (flags : UInt8) : Arranged bound mp { t with flags } :=
  wf.congr rfl rfl rfl rfl rfl rfl wf.unused

theorem isNaN_of_isKey (isKey : IsKey key) : key.isNaN = false := by
  obtain ⟨-, self⟩ := isKey
  cases key with
  | number n =>
    have self' : numeq n n = true := self
    simp [TValue.isNaN, self']
  | nil | boolean | lightuserdata | string | object | deadkey => rfl

theorem setFlags_getSlot (t : Table N) (flags : UInt8) (key : TValue N) :
    ({ t with flags } : Table N).getSlot mp key = t.getSlot mp key :=
  getSlot_congr rfl rfl rfl rfl key

theorem setWith_eq (grow : TValue N → TableM N Slot) (isKey : IsKey key) (t : Table N) :
    setWith mp grow key t = if t.getSlot mp key ≠ .nilobject then .ok (t.getSlot mp key) { t with flags := 0 }
      else newkeyWith mp grow key { t with flags := 0 } := by
  have notNil : key.isNil = false := by simpa using isKey.ne_nil
  simp only [setWith, notNil, isNaN_of_isKey isKey, Bool.false_eq_true, if_false]

theorem Arranged.setWith_places (wf : Arranged bound mp t) (isKey : IsKey key) (canTake : CanTake mp t key)
    (grow : TValue N → TableM N Slot) :
    ∃ slot t', setWith mp grow key t = .ok slot t' ∧ Places bound mp { t with flags := 0 } key slot t' := by
  have canTake' : CanTake mp { t with flags := 0 } key := by
    intro missing
    rw [setFlags_getSlot] at missing
    exact canTake missing
  have placed := (wf.setFlags 0).get_or_newkey isKey canTake' grow
  rw [setFlags_getSlot] at placed
  rwa [setWith_eq grow isKey]

theorem isKey_castNum {k : Int} (inInt : InInt k) : IsKey (.number (castNum k) : TValue N) :=
  ⟨by simp, GafqNumber.castNum_self inInt⟩

theorem isKey_string (s : Nat) : IsKey (.string s : TValue N) := ⟨by simp, by simp [rawequalObj]⟩

theorem getnum_castNum (t : Table N) {k : Int} (inInt : InInt k) :
    t.getnum mp k = t.getSlot mp (.number (castNum k)) :=
  getnum_eq_getSlot t inInt (GafqNumber.castNum_self inInt)

theorem Arranged.setnumWith_places (wf : Arranged bound mp t) {k : Int} (inInt : InInt k)
    (canTake : CanTake mp t (.number (castNum k))) (grow : TValue N → TableM N Slot) :
    ∃ slot t', setnumWith mp grow k t = .ok slot t' ∧ Places bound mp t (.number (castNum k)) slot t' := by
  simp only [setnumWith, getnum_castNum t inInt]
  exact wf.get_or_newkey (isKey_castNum inInt) canTake grow

/-! ## A place and a store -/

/-- `t'` is `t` with `v` stored under `key`. -/
structure Stores (bound : Nat) (mp : MainPosition N) (t : Table N) (key v : TValue N) (t' : Table N) : Prop where
  wf : Arranged bound mp t'
  sizearray : t'.sizearray = t.sizearray
  lsizenode : t'.lsizenode = t.lsizenode
  isDummy : t'.isDummy = t.isDummy
  value : ∀ k, t'.value mp k = if rawequalObj k key then v else t.value mp k
  beyond : ∀ i, t.sizearray ≤ i → t'.array i = t.array i
  room : t.room ≤ t'.room + if t.InArray key then 0 else 1

theorem Places.stores {slot : Slot} (wf : Arranged bound mp t) (placed : Places bound mp t key slot t') (v : TValue N) :
    Stores bound mp t key v (t'.write slot v) where
  wf := placed.wf.write placed.slotFor v
  sizearray := by rw [write_sizearray, placed.sizearray]
  lsizenode := by rw [write_lsizenode, placed.lsizenode]
  isDummy := by rw [write_isDummy, placed.isDummy]
  value k := by
    rw [placed.wf.write_value placed.slotFor v k,
      value_congr wf placed.wf placed.sizearray placed.array placed.entries k]
  beyond i outside := by
    cases placed.slotFor with
    | array inside =>
      have other : i ≠ (arrayindex key - 1).toNat := by
        have := inside.1
        have := inside.2
        rw [placed.sizearray] at this
        omega
      simp only [Table.write, Function.update_of_ne other, placed.array]
    | node => simp only [Table.write, placed.array]
  room := by
    rw [write_room]
    exact placed.room

theorem Stores.of_flags {flags : UInt8} {v : TValue N} (stored : Stores bound mp { t with flags } key v t') :
    Stores bound mp t key v t' where
  wf := stored.wf
  sizearray := stored.sizearray
  lsizenode := stored.lsizenode
  isDummy := stored.isDummy
  value k := by
    have same : ({ t with flags } : Table N).value mp k = t.value mp k := by
      rw [Table.value, setFlags_getSlot]
      rfl
    rw [stored.value k, same]
  beyond := stored.beyond
  room := stored.room

end Table

end Gafq
