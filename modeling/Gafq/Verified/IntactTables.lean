import Gafq.Verified.RehashRoom

/-! # Stores into any table

`Arranged` has no dead keys and bounds the array part.  A table that a program comes by without a failed
allocation may have both dead keys and a large array part, and is still a map: `Intact` is what insertions
and stores need for that.
-/

namespace Gafq

open Base

variable {N : Type} [GafqNumber N]

namespace Table

variable {mp : MainPosition N} {t t' : Table N} {key k v : TValue N} {i n : Nat} {slot : Slot} {grow : TValue N → TableM N Slot}

structure Intact (mp : MainPosition N) (t : Table N) : Prop where
  chained : ChainedIn 0 mp t
  /-- no entry is hidden by the array part -/
  apart : ∀ {i}, (t.node i).val ≠ .nil → ¬ t.InArray (t.keys i)

/-! ## Values -/

theorem Intact.keys_ne_nil (intact : Intact mp t) (used : (t.node i).val ≠ .nil) : t.keys i ≠ .nil :=
  fun free => used (intact.chained.unused (.inl free))

theorem Intact.live (intact : Intact mp t) (used : (t.node i).val ≠ .nil) : (t.keys i).isDeadkey = false := by
  by_contra dead
  exact used (intact.chained.unused (.inr (by simpa using dead)))

theorem Intact.value_node (intact : Intact mp t) (used : t.keys i ≠ .nil) (live : key.isDeadkey = false)
    (equal : rawequalObj (t.keys i) key = true) (outside : ¬ t.InArray key) : t.value mp key = (t.node i).val := by
  have notNil : key ≠ .nil := ((intact.chained.isKey used).of_rawequal (rawequalObj_symm equal)).ne_nil
  rw [value, getSlot_eq t notNil, if_neg outside, intact.chained.search_node used live equal]
  rfl

omit [GafqNumber N] in
theorem search_cases (t : Table N) (test : TValue N → Bool) (start : Nat) :
    t.search test start = .nilobject ∨ ∃ i, t.search test start = .node i ∧ test (t.keys i) = true := by
  cases found : t.search test start with
  | node i => exact .inr ⟨i, rfl, search_test found⟩
  | nilobject => exact .inl rfl
  | array i =>
    unfold search at found
    split at found <;> cases found

/-- A value that is found under a key outside the array part is that of a node with an equal key. -/
theorem value_outside (notNil : key ≠ .nil) (outside : ¬ t.InArray key) :
    t.value mp key = .nil ∨ ∃ i, rawequalObj (t.keys i) key = true ∧ t.value mp key = (t.node i).val := by
  rw [value, getSlot_eq t notNil, if_neg outside]
  obtain missing | ⟨i, found, equal⟩ := t.search_cases (rawequalObj · key) (mp.pos t.lsizenode key)
  · rw [missing]
    exact .inl rfl
  · rw [found]
    exact .inr ⟨i, equal, rfl⟩

theorem value_absent (notNil : key ≠ .nil) (outside : ¬ t.InArray key)
    (absent : ∀ i, (t.node i).val ≠ .nil → rawequalObj (t.keys i) key = false) : t.value mp key = .nil := by
  obtain missing | ⟨i, equal, found⟩ := value_outside notNil outside
  · exact missing
  · rw [found]
    by_contra used
    rw [absent i used] at equal
    cases equal

theorem Intact.value_eq_iff (intact : Intact mp t) (live : key.isDeadkey = false) (outside : ¬ t.InArray key) (some : v ≠ .nil) :
    t.value mp key = v ↔ ∃ key', rawequalObj key' key = true ∧ t.Entry key' v := by
  constructor
  · intro found
    have notNil : key ≠ .nil := by
      rintro rfl
      exact some found.symm
    obtain missing | ⟨i, equal, here⟩ := value_outside notNil outside
    · exact absurd (found.symm.trans missing) some
    · have val : (t.node i).val = v := here.symm.trans found
      exact ⟨t.keys i, equal, i, rfl, val, intact.keys_ne_nil (val ▸ some), some⟩
  · rintro ⟨key', equal, i, rfl, rfl, used, -⟩
    exact intact.value_node used live equal outside

/-- The keys of two entries are different. -/
theorem Intact.distinct (intact : Intact mp t) {j : Nat} (usedI : (t.node i).val ≠ .nil) (usedJ : (t.node j).val ≠ .nil)
    (equal : rawequalObj (t.keys i) (t.keys j) = true) : i = j := by
  have found := intact.chained.search_node (intact.keys_ne_nil usedI) (intact.live usedJ) equal
  have self := (intact.chained.isKey (intact.keys_ne_nil usedJ)).self
  rw [intact.chained.search_node (intact.keys_ne_nil usedJ) (intact.live usedJ) self] at found
  exact (Slot.node.inj found).symm

theorem Intact.value_congr (intact : Intact mp t) (intact' : Intact mp t') (size : t'.sizearray = t.sizearray)
    (array : t'.array = t.array) (entries : ∀ key v, t'.Entry key v ↔ t.Entry key v) (live : k.isDeadkey = false) :
    t'.value mp k = t.value mp k := by
  have inArray : t'.InArray k ↔ t.InArray k := by rw [InArray, InArray, size]
  by_cases inside : t.InArray k
  · rw [value_of_inArray inside, value_of_inArray (inArray.mpr inside), array]
  · have same {v : TValue N} (some : v ≠ .nil) : t'.value mp k = v ↔ t.value mp k = v := by
      rw [intact.value_eq_iff live inside some, intact'.value_eq_iff live (mt inArray.mp inside) some]
      simp only [entries]
    by_cases nothing : t.value mp k = .nil
    · by_contra other
      rw [nothing] at other
      exact other ((same other).mp rfl ▸ nothing)
    · exact (same nothing).mpr rfl

/-! ## Stores -/

/-- The slot that a search for the key finds. -/
inductive SlotOf (t : Table N) (key : TValue N) : Slot → Prop
  | array (inside : t.InArray key) : SlotOf t key (.array (arrayindex key - 1).toNat)
  | node {i : Nat} (used : t.keys i ≠ .nil) (equal : rawequalObj (t.keys i) key = true) (outside : ¬ t.InArray key) :
      SlotOf t key (.node i)

theorem slotOf_getSlot (notNil : key ≠ .nil) (found : t.getSlot mp key ≠ .nilobject) : SlotOf t key (t.getSlot mp key) := by
  rw [getSlot_eq t notNil] at found ⊢
  by_cases inside : t.InArray key
  · rw [if_pos inside]
    exact .array inside
  · rw [if_neg inside] at found ⊢
    obtain missing | ⟨i, here, equal⟩ := t.search_cases (rawequalObj · key) (mp.pos t.lsizenode key)
    · exact absurd missing found
    · rw [here]
      refine .node (fun free => ?_) equal inside
      rw [free, rawequalObj_nil notNil] at equal
      cases equal

theorem storable_slotOf (held : Held key) (slotOf : SlotOf t key slot) : t.Storable slot := by
  rintro j rfl
  cases slotOf with
  | node used equal outside =>
    refine ⟨used, ?_⟩
    have liveKey := held.live
    cases same : t.keys j with
    | deadkey a =>
      rw [same] at equal
      cases key <;> first | cases equal | cases liveKey
    | nil | boolean | lightuserdata | number | string | object => rfl

theorem Intact.write (intact : Intact mp t) (held : Held key) (slotOf : SlotOf t key slot) (v : TValue N) :
    Intact mp (t.write slot v) where
  chained := intact.chained.write (storable_slotOf held slotOf) v
  apart {j} used inside := by
    have inside' : t.InArray (t.keys j) := by simpa [InArray] using inside
    cases slotOf with
    | array => exact intact.apart used inside'
    | @node i usedI equal outside =>
      by_cases here : j = i
      · subst here
        rw [InArray, arrayindex_congr equal] at inside'
        exact outside inside'
      · refine intact.apart ?_ inside'
        simpa [Table.write, Function.update_of_ne here] using used

theorem InArray.ne_nil (inside : t.InArray key) : key ≠ .nil := by
  rintro rfl
  simp [InArray, arrayindex] at inside

/-- A store into the array part is found under the one index. -/
theorem write_array_value (inside : t.InArray key) (v k : TValue N) :
    (t.write (.array (arrayindex key - 1).toNat) v).value mp k = if rawequalObj k key then v else t.value mp k := by
  by_cases insideK : t.InArray k
  · have insideK' : (t.write (.array (arrayindex key - 1).toNat) v).InArray k := insideK
    rw [value_of_inArray insideK, value_of_inArray insideK']
    have low := insideK.1
    have low' := inside.1
    by_cases equal : rawequalObj k key = true
    · simp [equal, arrayindex_congr equal, Table.write]
    · have other : (arrayindex k - 1).toNat ≠ (arrayindex key - 1).toNat := by
        intro same
        apply equal
        have same' : arrayindex k = arrayindex key := by omega
        have first := rawequal_of_arrayindex low rfl
        rw [same'] at first
        exact rawequalObj_trans (rawequalObj_symm first) (rawequal_of_arrayindex low' rfl)
      rw [if_neg equal]
      exact Function.update_of_ne other _ _
  · have different : rawequalObj k key = false := by
      by_contra equal
      rw [InArray, arrayindex_congr (show rawequalObj k key = true by simpa using equal)] at insideK
      exact insideK inside
    by_cases isNil : k = .nil
    · subst isNil
      rw [different]
      rfl
    · rw [different, value, write_getSlot, value, getSlot_eq t isNil, if_neg insideK]
      obtain missing | ⟨i, here, -⟩ := t.search_cases (rawequalObj · k) (mp.pos t.lsizenode k)
      · rw [missing]
        rfl
      · rw [here]
        rfl

/-- After a store, the value is found under the keys that are equal to the one of the slot. -/
theorem Intact.write_value (intact : Intact mp t) (held : Held key) (slotOf : SlotOf t key slot) (v : TValue N)
    (live : k.isDeadkey = false) : (t.write slot v).value mp k = if rawequalObj k key then v else t.value mp k := by
  have written := intact.write held slotOf v
  cases slotOf with
  | array inside => exact write_array_value inside v k
  | @node i used equal outside =>
    have insideIff (k : TValue N) : (t.write (.node i) v).InArray k ↔ t.InArray k := Iff.rfl
    by_cases same : rawequalObj k key = true
    · have outsideK : ¬ t.InArray k := by
        rw [InArray, arrayindex_congr same]
        exact outside
      have equalK := rawequalObj_trans equal (rawequalObj_symm same)
      rw [if_pos same, written.value_node (by rwa [write_keys]) live (by rwa [write_keys]) outsideK]
      simp [Table.write]
    · rw [if_neg same]
      by_cases inside : t.InArray k
      · rw [value_of_inArray inside, value_of_inArray ((insideIff k).mpr inside)]
        rfl
      · by_cases isNil : k = .nil
        · subst isNil
          rfl
        rw [value, write_getSlot, value, getSlot_eq t isNil, if_neg inside]
        obtain missing | ⟨j, here, equalJ⟩ := t.search_cases (rawequalObj · k) (mp.pos t.lsizenode k)
        · rw [missing]
          rfl
        · have other : j ≠ i := by
            rintro rfl
            exact same (rawequalObj_trans (rawequalObj_symm equalJ) equal)
          rw [here]
          simp [read, Table.write, Function.update_of_ne other]

/-! ## New keys -/

/-- `t'` has a place for the key and the same contents as `t`. -/
structure Gains (mp : MainPosition N) (t : Table N) (key : TValue N) (slot : Slot) (t' : Table N) : Prop where
  intact : Intact mp t'
  slotOf : SlotOf t' key slot
  value : ∀ k : TValue N, k.isDeadkey = false → t'.value mp k = t.value mp k

/-- The key has a node of its own, and every entry is where it was or has moved. -/
theorem Intact.gains_of (intact : Intact mp t) (held : Held key) (outside : ¬ t.InArray key) (placed : Placed 0 mp (.node i) t')
    (here : t'.keys i = key) (empty : (t'.node i).val = .nil) (size : t'.sizearray = t.sizearray) (array : t'.array = t.array)
    (origin : ∀ j, j ≠ i → ∃ j', t'.keys j = t.keys j' ∧ (t'.node j).val = (t.node j').val)
    (kept : ∀ j, (t.node j).val ≠ .nil → ∃ j', t'.keys j' = t.keys j ∧ (t'.node j').val = (t.node j).val) :
    Gains mp t key (.node i) t' := by
  have inArray (k : TValue N) : t'.InArray k ↔ t.InArray k := by rw [InArray, InArray, size]
  have moved {j : Nat} (used : (t'.node j).val ≠ .nil) :
      ∃ j', t'.keys j = t.keys j' ∧ (t'.node j).val = (t.node j').val := by
    apply origin j
    rintro rfl
    exact used empty
  have intact' : Intact mp t' := by
    refine ⟨placed.1, fun {j} used inside => ?_⟩
    obtain ⟨j', sameKey, sameVal⟩ := moved used
    rw [sameKey, inArray] at inside
    exact intact.apart (sameVal ▸ used) inside
  refine ⟨intact', .node ?_ ?_ ?_, fun k live => intact.value_congr intact' size array (fun key' v => ?_) live⟩
  · rw [here]
    exact held.isKey.ne_nil
  · rw [here]
    exact held.isKey.self
  · rwa [inArray]
  · constructor
    · rintro ⟨j, rfl, rfl, used, some⟩
      obtain ⟨j', sameKey, sameVal⟩ := moved some
      exact ⟨j', sameKey.symm, sameVal.symm, used, some⟩
    · rintro ⟨j, rfl, rfl, used, some⟩
      obtain ⟨j', sameKey, sameVal⟩ := kept j some
      exact ⟨j', sameKey, sameVal, used, some⟩

theorem Intact.setKey_gains (intact : Intact mp t) (missing : Missing t key) (outside : ¬ t.InArray key) (notDummy : t.isDummy = false)
    (unused : (t.node (mp.pos t.lsizenode key)).val = .nil) :
    Gains mp t key (.node (mp.pos t.lsizenode key)) (t.setKey (mp.pos t.lsizenode key) key) := by
  have keysEq := t.setKey_keys (mp.pos t.lsizenode key) key
  have nodeAt := t.setKey_node (mp.pos t.lsizenode key) key
  refine intact.gains_of missing.held outside (intact.chained.setKey_placed missing notDummy) ?_ ?_ rfl rfl ?_ ?_
  · rw [keysEq, Function.update_self]
  · rw [nodeAt, if_pos rfl]
    exact unused
  · intro j other
    exact ⟨j, by rw [keysEq, Function.update_of_ne other], by rw [nodeAt, if_neg other]⟩
  · intro j used
    have other : j ≠ mp.pos t.lsizenode key := by
      rintro rfl
      exact used unused
    exact ⟨j, by rw [keysEq, Function.update_of_ne other], by rw [nodeAt, if_neg other]⟩

theorem Intact.link_gains (intact : Intact mp t) (missing : Missing t key) (outside : ¬ t.InArray key) (free : t.keys n = .nil)
    (below : (n : Int) < t.lastfree) (used : (t.node (mp.pos t.lsizenode key)).val ≠ .nil)
    (atHome : mp.pos t.lsizenode (t.keys (mp.pos t.lsizenode key)) = mp.pos t.lsizenode key) :
    Gains mp t key (.node n) (({ t with lastfree := (n : Int) }.chainNode (mp.pos t.lsizenode key) n).setKey n key) := by
  have distinct : mp.pos t.lsizenode key ≠ n := fun same => intact.keys_ne_nil used (same ▸ free)
  have keysEq := @linked_keys _ t key (mp.pos t.lsizenode key) n n distinct
  have nodeAt := @linked_node _ t key (mp.pos t.lsizenode key) n n distinct
  refine intact.gains_of missing.held outside (intact.chained.link_placed missing free below used atHome) ?_ ?_ rfl rfl ?_ ?_
  · rw [keysEq, Function.update_self]
  · rw [nodeAt, if_pos rfl]
    exact intact.chained.unused (.inl free)
  · intro j other
    refine ⟨j, by rw [keysEq, Function.update_of_ne other], ?_⟩
    rw [nodeAt, if_neg other]
    split <;> rfl
  · intro j usedJ
    have other : j ≠ n := by
      rintro rfl
      exact intact.keys_ne_nil usedJ free
    refine ⟨j, by rw [keysEq, Function.update_of_ne other], ?_⟩
    rw [nodeAt, if_neg other]
    split <;> rfl

theorem Intact.move_gains (intact : Intact mp t) (missing : Missing t key) (outside : ¬ t.InArray key) {prev : Nat}
    (free : t.keys n = .nil) (below : (n : Int) < t.lastfree) (used : (t.node (mp.pos t.lsizenode key)).val ≠ .nil)
    (stranger : mp.pos t.lsizenode (t.keys (mp.pos t.lsizenode key)) ≠ mp.pos t.lsizenode key)
    (step : t.next prev = some (mp.pos t.lsizenode key)) :
    Gains mp t key (.node (mp.pos t.lsizenode key))
      (({ t with lastfree := (n : Int) }.moveNode prev (mp.pos t.lsizenode key) n).setKey (mp.pos t.lsizenode key) key) := by
  have distinct : mp.pos t.lsizenode key ≠ n := fun same => intact.keys_ne_nil used (same ▸ free)
  have notSelf : prev ≠ mp.pos t.lsizenode key := by
    obtain ⟨home, scatter⟩ := intact.chained.chains
    intro same
    rw [same] at step
    exact scatter.linked.next_ne_self step
  have keysEq := @moved_keys _ t key (mp.pos t.lsizenode key) n prev n distinct notSelf
  have nodeAt := @moved_node _ t key (mp.pos t.lsizenode key) n prev n distinct notSelf
  refine intact.gains_of missing.held outside (intact.chained.move_placed missing free below used stranger step) ?_ ?_ rfl rfl ?_ ?_
  · rw [keysEq, Function.update_self]
  · rw [nodeAt, if_pos rfl]
  · intro j other
    by_cases new : j = n
    · refine ⟨mp.pos t.lsizenode key, ?_, ?_⟩
      · rw [keysEq, Function.update_of_ne other, new, Function.update_self]
      · rw [nodeAt, if_neg other, if_pos new]
    · refine ⟨j, by rw [keysEq, Function.update_of_ne other, Function.update_of_ne new], ?_⟩
      rw [nodeAt, if_neg other, if_neg new]
      split <;> rfl
  · intro j usedJ
    have other : j ≠ n := by
      rintro rfl
      exact intact.keys_ne_nil usedJ free
    by_cases here : j = mp.pos t.lsizenode key
    · refine ⟨n, ?_, ?_⟩
      · rw [keysEq, Function.update_of_ne distinct.symm, Function.update_self, here]
      · rw [nodeAt, if_neg distinct.symm, if_pos rfl, here]
    · refine ⟨j, by rw [keysEq, Function.update_of_ne here, Function.update_of_ne other], ?_⟩
      rw [nodeAt, if_neg here, if_neg other]
      split <;> rfl

/-- `newkey` finds a place, or calls `rehash`. -/
theorem Intact.newkeyWith_cases (intact : Intact mp t) (missing : Missing t key) (outside : ¬ t.InArray key) :
    (∃ slot t', (∀ grow, newkeyWith mp grow key t = .ok slot t') ∧ Gains mp t key slot t') ∨
      ∃ lastfree ≤ t.lastfree, ∀ grow, newkeyWith mp grow key t = grow key { t with lastfree } := by
  unfold newkeyWith
  by_cases test : (!(t.node (mp.pos t.lsizenode key)).val.isNil || t.isDummy) = true
  · simp only [test, if_true]
    cases found : t.getfreepos with
    | mk lastfree free =>
      cases free with
      | none =>
        have low := t.getfreepos_le
        rw [found] at low
        exact .inr ⟨lastfree, low, fun _ => rfl⟩
      | some n =>
        obtain ⟨rfl, below, free⟩ := getfreepos_free found
        have notDummy : t.isDummy = false := intact.chained.not_dummy below
        have used : (t.node (mp.pos t.lsizenode key)).val ≠ .nil := by simpa [notDummy] using test
        left
        simp only [insertAt]
        by_cases atHome : mp.pos t.lsizenode (t.keys (mp.pos t.lsizenode key)) = mp.pos t.lsizenode key
        · rw [if_neg (by simpa [keys] using atHome)]
          exact ⟨_, _, fun _ => rfl, intact.link_gains missing outside free below used atHome⟩
        · rw [if_pos (by simpa [keys] using atHome)]
          -- the live key at the main position is on the chain of its own
          obtain ⟨home, scatter⟩ := intact.chained.chains
          have label := @labels_live _ t home (mp.pos t.lsizenode key) (intact.live used)
          have walks := scatter.walk_previous (labels_ne_nil.2 (intact.keys_ne_nil used))
            (by simpa only [labelling, label] using atHome)
          rw [label] at walks
          obtain ⟨prev, walked, step⟩ := walks
          have walked' : walk t.next (fun i => t.next i == some (mp.pos t.lsizenode key)) t.sizenode
              (mp.pos t.lsizenode (t.node (mp.pos t.lsizenode key)).key) = some prev := walked
          have sameNext : ({ t with lastfree := (n : Int) } : Table N).next = t.next := rfl
          have sameSize : ({ t with lastfree := (n : Int) } : Table N).sizenode = t.sizenode := rfl
          simp only [sameNext, sameSize, walked']
          exact ⟨_, _, fun _ => rfl, intact.move_gains missing outside free below used atHome step⟩
  · simp only [test, if_false, Bool.false_eq_true]
    simp only [Bool.or_eq_true, Bool.not_eq_true', TValue.isNil_eq_false, not_or, not_not, Bool.not_eq_true] at test
    exact .inl ⟨_, _, fun _ => rfl, intact.setKey_gains missing outside test.2 test.1⟩

end Table

end Gafq
