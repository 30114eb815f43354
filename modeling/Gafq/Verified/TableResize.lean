import Gafq.Verified.TableStore
import Gafq.Verified.TableSizes

/-! # Resizing keeps the contents

The loops of `resize` insert every element of the old parts that has no place in the new array
part.  There is room for all of them, so none of these insertions rehashes again, and afterwards
every key has the value that it had before.
-/

namespace Gafq

open Base

variable {N : Type} [GafqNumber N]

namespace Table

variable {bound : Nat} {mp : MainPosition N} {t t' : Table N} {key v : TValue N} {grow : TValue N → TableM N Slot}

/-! ## Sequencing -/

omit [GafqNumber N] in
theorem bind_of_ok {α β : Type} {x : TableM N α} {f : α → TableM N β} {a : α} (ran : x t = .ok a t') :
    (x >>= f) t = f a t' := by
  simp only [bind, EStateM.bind, ran]

omit [GafqNumber N] in
theorem bind_of_error {α β : Type} {x : TableM N α} {f : α → TableM N β} {e : TableError} (ran : x t = .error e t') :
    (x >>= f) t = .error e t' := by
  simp only [bind, EStateM.bind, ran]

omit [GafqNumber N] in
theorem storeAt_of_ok {insertion : TableM N Slot} {slot : Slot} (ran : insertion t = .ok slot t') :
    storeAt insertion v t = .ok () (t'.write slot v) := by
  rw [storeAt, bind_of_ok ran]
  rfl

/-! ## One element -/

theorem Arranged.storeAt_set (wf : Arranged bound mp t) (isKey : IsKey key) (canTake : CanTake mp t key)
    (v : TValue N) : ∃ t', storeAt (setWith mp grow key) v t = .ok () t' ∧ Stores bound mp t key v t' := by
  obtain ⟨slot, t', ran, placed⟩ := wf.setWith_places isKey canTake grow
  exact ⟨_, storeAt_of_ok ran, (placed.stores (wf.setFlags 0) v).of_flags⟩

theorem Arranged.storeAt_setnum (wf : Arranged bound mp t) {k : Int} (inInt : InInt k)
    (canTake : CanTake mp t (.number (castNum k))) (v : TValue N) :
    ∃ t', storeAt (setnumWith mp grow k) v t = .ok () t' ∧ Stores bound mp t (.number (castNum k)) v t' := by
  obtain ⟨slot, t', ran, placed⟩ := wf.setnumWith_places inInt canTake grow
  exact ⟨_, storeAt_of_ok ran, placed.stores wf v⟩

/-- Room for the key, or a place in the array part. -/
theorem canTake_of_room {n : Nat} (size : t.sizearray = n) (room : keyNeed n key ≤ t.room) : CanTake mp t key := by
  by_cases inside : t.InArray key
  · exact canTake_of_inArray inside
  · intro _
    unfold keyNeed at room
    rw [if_neg (by rw [← size]; exact inside)] at room
    omega

theorem keyNeed_eq {n : Nat} (size : t.sizearray = n) (key : TValue N) :
    (if t.InArray key then 0 else 1) = keyNeed n key := by
  subst size
  unfold keyNeed
  by_cases inside : t.InArray key
  · rw [if_pos inside, if_pos (show 1 ≤ arrayindex key ∧ arrayindex key ≤ t.sizearray from inside)]
  · rw [if_neg inside, if_neg (show ¬ (1 ≤ arrayindex key ∧ arrayindex key ≤ t.sizearray) from inside)]

/-- A rewriting step that loses no contents besides those it states. -/
structure SameParts (t t' : Table N) : Prop where
  sizearray : t'.sizearray = t.sizearray
  lsizenode : t'.lsizenode = t.lsizenode
  isDummy : t'.isDummy = t.isDummy
  beyond : ∀ i, t.sizearray ≤ i → t'.array i = t.array i

omit [GafqNumber N] in
theorem SameParts.refl (t : Table N) : SameParts t t := ⟨rfl, rfl, rfl, fun _ _ => rfl⟩

omit [GafqNumber N] in
theorem SameParts.trans {t'' : Table N} (first : SameParts t t') (second : SameParts t' t'') : SameParts t t'' where
  sizearray := second.sizearray.trans first.sizearray
  lsizenode := second.lsizenode.trans first.lsizenode
  isDummy := second.isDummy.trans first.isDummy
  beyond i outside := (second.beyond i (first.sizearray ▸ outside)).trans (first.beyond i outside)

theorem Stores.sameParts (stored : Stores bound mp t key v t') : SameParts t t' :=
  ⟨stored.sizearray, stored.lsizenode, stored.isDummy, stored.beyond⟩

/-! ## The vanishing slice of the array -/

/-- How many of the `n` elements from index `i` on are not `nil`. -/
def sliceNeed (t : Table N) : Nat → Nat → Nat
  | _, 0 => 0
  | i, n + 1 => (if (t.array i).isNil then 0 else 1) + t.sliceNeed (i + 1) n

omit [GafqNumber N] in
theorem sliceNeed_congr (i n : Nat) (same : ∀ j, i ≤ j → t'.array j = t.array j) :
    t'.sliceNeed i n = t.sliceNeed i n := by
  induction n generalizing i with
  | zero => rfl
  | succ n inductionHypothesis =>
    rw [sliceNeed, sliceNeed, same i (le_refl _), inductionHypothesis (i + 1) fun j above => same j (by omega)]

omit [GafqNumber N] in
theorem sliceNeed_eq (t : Table N) (i n : Nat) :
    t.sliceNeed i n = ((List.range' (i + 1) n).filter fun k => !(t.array (k - 1)).isNil).length := by
  induction n generalizing i with
  | zero => rfl
  | succ n inductionHypothesis =>
    rw [sliceNeed, inductionHypothesis, List.range'_succ, List.filter_cons, Nat.add_sub_cancel]
    cases (t.array i).isNil with
    | true => simp
    | false =>
      simp only [Bool.false_eq_true, if_false, Bool.not_false, if_true, List.length_cons]
      omega

theorem not_inArray_castNum {i : Nat} (outside : t.sizearray ≤ i) (inInt : InInt ((i : Int) + 1)) :
    ¬ t.InArray (.number (castNum ((i : Int) + 1))) := by
  rw [InArray, arrayindex_castNum inInt]
  omega

theorem reinsertArray_spec (n : Nat) : ∀ (i : Nat) (t : Table N), Arranged bound mp t → t.sizearray ≤ i →
    InInt ((i + n : Nat) : Int) → t.sliceNeed i n ≤ t.room →
    ∃ t', reinsertArray mp grow i n t = .ok () t' ∧ Arranged bound mp t' ∧ SameParts t t' ∧
      t.room ≤ t'.room + t.sliceNeed i n ∧
      ∀ k, t'.value mp k =
        if (i < arrayindex k ∧ arrayindex k ≤ i + n) ∧ (t.array (arrayindex k - 1).toNat).isNil = false
        then t.array (arrayindex k - 1).toNat else t.value mp k := by
  induction n with
  | zero =>
    intro i t wf outside range room
    refine ⟨t, rfl, wf, .refl t, Nat.le_add_right .., fun k => ?_⟩
    rw [if_neg]
    rintro ⟨within, -⟩
    omega
  | succ n inductionHypothesis =>
    intro i t wf outside range room
    have range' : InInt ((i + 1 + n : Nat) : Int) := by rwa [show i + 1 + n = i + (n + 1) by omega]
    rw [sliceNeed] at room ⊢
    unfold reinsertArray
    simp only [bind, EStateM.bind, get, getThe, MonadStateOf.get, EStateM.get]
    by_cases isNil : t.array i = .nil
    · have test : (t.array i).isNil = true := by simp [isNil]
      simp only [test, if_true, Bool.not_true, Bool.false_eq_true, if_false, Nat.zero_add] at room ⊢
      obtain ⟨t', ran, wf', parts, room', values⟩ :=
        inductionHypothesis (i + 1) t wf (by omega) range' room
      refine ⟨t', by simpa [pure, EStateM.pure] using ran, wf', parts, room', fun k => ?_⟩
      rw [values k]
      by_cases here : arrayindex k = (i : Int) + 1
      · have element : (arrayindex k - 1).toNat = i := by omega
        rw [element, if_neg (by simp [test]), if_neg (by simp [test])]
      · have same : ((i + 1 : Nat) : Int) < arrayindex k ∧ arrayindex k ≤ ((i + 1 : Nat) : Int) + n ↔
            (i : Int) < arrayindex k ∧ arrayindex k ≤ (i : Int) + ((n + 1 : Nat) : Int) := by omega
        simp only [same]
    · have test : (t.array i).isNil = false := by simpa using isNil
      have inInt : InInt ((i : Int) + 1) := by
        have := range.2
        constructor <;> omega
      simp only [test, Bool.not_false, if_true, Bool.false_eq_true, if_false] at room ⊢
      have canTake : CanTake mp t (.number (castNum ((i : Int) + 1))) := fun _ => by omega
      obtain ⟨t₁, ran, stored⟩ := @Arranged.storeAt_setnum _ _ bound mp t grow wf _ inInt canTake (t.array i)
      have later : ∀ j, i + 1 ≤ j → t₁.array j = t.array j := fun j above => stored.beyond j (by omega)
      have needed := @sliceNeed_congr _ t t₁ (i + 1) n later
      have cost := stored.room
      rw [if_neg (not_inArray_castNum outside inInt)] at cost
      obtain ⟨t', ran', wf', parts, room', values⟩ :=
        inductionHypothesis (i + 1) t₁ stored.wf (by rw [stored.sizearray]; omega) range' (by omega)
      refine ⟨t', ?_, wf', stored.sameParts.trans parts, by omega, fun k => ?_⟩
      · exact (bind_of_ok ran).trans ran'
      · rw [values k, stored.value k]
        by_cases here : arrayindex k = (i : Int) + 1
        · have element : (arrayindex k - 1).toNat = i := by omega
          have equal : rawequalObj k (.number (castNum ((i : Int) + 1))) = true :=
            rawequalObj_symm (rawequal_of_arrayindex (by omega) here)
          rw [element, if_neg (by omega), if_pos equal, if_pos ⟨by omega, test⟩]
        · have other : rawequalObj k (.number (castNum ((i : Int) + 1))) = false := by
            by_contra equal
            have := arrayindex_congr (show rawequalObj k _ = true by simpa using equal)
            rw [arrayindex_castNum inInt] at this
            exact here this
          simp only [other, Bool.false_eq_true, if_false]
          by_cases range : ((i + 1 : Nat) : Int) < arrayindex k ∧ arrayindex k ≤ ((i + 1 : Nat) : Int) + n
          · rw [later (arrayindex k - 1).toNat (by omega)]
            have range' : (i : Int) < arrayindex k ∧ arrayindex k ≤ (i : Int) + ((n + 1 : Nat) : Int) := by omega
            simp only [range, range', true_and]
          · have range' : ¬ ((i : Int) < arrayindex k ∧ arrayindex k ≤ (i : Int) + ((n + 1 : Nat) : Int)) := by omega
            simp only [range, range', false_and, if_false]

/-! ## The old nodes -/

theorem reinsertNodes_spec {old : Table N} (isKey : ∀ j, (old.node j).val ≠ .nil → IsKey (old.keys j)) (i : Nat) :
    ∀ t : Table N, Arranged bound mp t →
    old.hashNeed t.sizearray i ≤ t.room →
    ∃ t', reinsertNodes mp grow old.node i t = .ok () t' ∧ Arranged bound mp t' ∧ SameParts t t' ∧
      t.room ≤ t'.room + old.hashNeed t.sizearray i ∧
      (∀ k j, j < i → (old.node j).val ≠ .nil → rawequalObj (old.keys j) k = true →
        (∀ j' < j, (old.node j').val ≠ .nil → rawequalObj (old.keys j') k = false) → t'.value mp k = (old.node j).val) ∧
      ∀ k, (∀ j, j < i → (old.node j).val ≠ .nil → rawequalObj (old.keys j) k = false) →
        t'.value mp k = t.value mp k := by
  induction i with
  | zero =>
    intro t wf room
    exact ⟨t, rfl, wf, .refl t, Nat.le_add_right .., fun _ _ early => absurd early (Nat.not_lt_zero _),
      fun _ _ => rfl⟩
  | succ i inductionHypothesis =>
    intro t wf room
    rw [hashNeed] at room ⊢
    unfold reinsertNodes
    by_cases isNil : (old.node i).val = .nil
    · have test : (old.node i).val.isNil = true := by simp [isNil]
      simp only [test, if_true, Bool.not_true, Bool.false_eq_true, if_false, Nat.zero_add] at room ⊢
      obtain ⟨t', ran, wf', parts, room', moved, kept⟩ := inductionHypothesis t wf room
      refine ⟨t', ran, wf', parts, room', fun k j early used equal alone => ?_, fun k others => ?_⟩
      · have other : j ≠ i := by
          rintro rfl
          exact used isNil
        exact moved k j (by omega) used equal alone
      · exact kept k fun j early => others j (by omega)
    · have test : (old.node i).val.isNil = false := by simpa using isNil
      simp only [test, Bool.not_false, if_true, Bool.false_eq_true, if_false] at room ⊢
      have canTake : CanTake mp t (old.keys i) := canTake_of_room rfl (show keyNeed _ (old.node i).key ≤ _ by omega)
      obtain ⟨t₁, ran, stored⟩ := @Arranged.storeAt_set _ _ bound mp t _ grow wf (isKey i isNil) canTake (old.node i).val
      have cost := stored.room
      rw [keyNeed_eq rfl] at cost
      have cost' : t.room ≤ t₁.room + keyNeed t.sizearray (old.node i).key := cost
      have remaining : old.hashNeed t₁.sizearray i ≤ t₁.room := by
        rw [stored.sizearray]
        omega
      obtain ⟨t', ran', wf', parts, room', moved, kept⟩ := inductionHypothesis t₁ stored.wf remaining
      rw [stored.sizearray] at room'
      refine ⟨t', ?_, wf', stored.sameParts.trans parts, by omega, fun k j early used equal alone => ?_,
        fun k others => ?_⟩
      · rw [bind_of_ok (show storeAt (setWith mp grow (old.node i).key) (old.node i).val t = .ok () t₁ from ran)]
        exact ran'
      · by_cases here : j = i
        · subst here
          rw [kept k alone, stored.value k, if_pos (rawequalObj_symm equal)]
        · exact moved k j (by omega) used equal alone
      · rw [kept k fun j early => others j (by omega), stored.value k, if_neg]
        have := others i (by omega) isNil
        rw [rawequalObj_comm] at this
        simp [this]

/-! ## A new node vector -/

/-- The node vector has just been created. -/
structure EmptyNodes (t : Table N) : Prop where
  node : t.node = fun _ => {}
  lastfree : t.lastfree = if t.isDummy then 0 else t.sizenode
  dummy : t.isDummy = true → t.lsizenode = 0

theorem EmptyNodes.arranged (empty : EmptyNodes t) (small : t.sizearray ≤ bound) (mp : MainPosition N) :
    Arranged bound mp t := by
  have keysEq : t.keys = fun _ => .nil := by
    funext i
    rw [keys, empty.node]
  have nextEq : t.next = fun _ => none := by
    funext i
    rw [next, empty.node]
  constructor
  case scatter =>
    rw [keysEq, nextEq]
    exact Scatter.empty (t.hashing mp)
  case unused =>
    intro i _
    rw [empty.node]
  case isKey | apart =>
    intro i used
    rw [keysEq] at used
    exact absurd rfl used
  case lastfree_le =>
    rw [empty.lastfree]
    split <;> omega
  case used =>
    intro notDummy i above inside
    rw [empty.lastfree, notDummy] at above
    simp only [Bool.false_eq_true, if_false] at above
    omega
  case dummy =>
    intro dummy
    rw [empty.lastfree, dummy]
    exact ⟨empty.dummy dummy, le_refl _, fun i => by rw [keysEq]⟩
  case sizearray_le => exact small

omit [GafqNumber N] in
theorem EmptyNodes.room_eq (empty : EmptyNodes t) : t.room = if t.isDummy then 0 else t.sizenode := by
  have keysEq : t.keys = fun _ => .nil := by
    funext i
    rw [keys, empty.node]
  simp [room, keysEq, TValue.isNil]

theorem EmptyNodes.value_eq (empty : EmptyNodes t) (key : TValue N) :
    t.value mp key = if t.InArray key then t.array (arrayindex key - 1).toNat else .nil := by
  by_cases inside : t.InArray key
  · rw [if_pos inside, value_of_inArray inside]
  · rw [if_neg inside]
    refine (empty.arranged (le_refl _) mp).value_absent inside fun i used => ?_
    rw [keys, empty.node] at used
    exact absurd rfl used

omit [GafqNumber N] in
/-- A new node vector has at least the wanted size, unless that is too large or memory is short;
then nothing has changed. -/
theorem setnodevector_spec (ok : Bool) (size : Nat) (t : Table N) :
    (∃ t', setnodevector ok size t = .ok () t' ∧ (size = 0 ∨ ok = true ∧ ceillog2 size ≤ maxBits) ∧
      EmptyNodes t' ∧ t'.array = t.array ∧ t'.sizearray = t.sizearray ∧ size ≤ t'.room) ∨
    ∃ e, setnodevector ok size t = .error e t ∧ size ≠ 0 ∧
      (e = .tableOverflow ∧ maxBits < ceillog2 size ∨ e = .memory ∧ ok = false) := by
  unfold setnodevector
  by_cases none : size = 0
  · have empty : EmptyNodes { t with node := fun _ => {}, isDummy := true, lsizenode := 0, lastfree := 0 } :=
      ⟨rfl, rfl, fun _ => rfl⟩
    rw [if_pos none]
    exact .inl ⟨_, rfl, .inl none, empty, rfl, rfl, by omega⟩
  · rw [if_neg none]
    by_cases large : maxBits < ceillog2 size
    · rw [if_pos large]
      exact .inr ⟨_, rfl, none, .inl ⟨rfl, large⟩⟩
    · rw [if_neg large]
      cases ok with
      | false => exact .inr ⟨_, rfl, none, .inr ⟨rfl, rfl⟩⟩
      | true =>
        rw [if_pos rfl]
        have empty : EmptyNodes { t with
            node := fun _ => {}, isDummy := false, lsizenode := ceillog2 size,
            lastfree := (2 ^ ceillog2 size : Nat) } :=
          ⟨rfl, rfl, fun dummy => by cases dummy⟩
        refine .inl ⟨_, rfl, .inr ⟨rfl, Nat.not_lt.1 large⟩, empty, rfl, rfl, ?_⟩
        rw [empty.room_eq]
        exact le_two_pow_ceillog2 size

/-! ## The whole resize -/

/-- The vectors have been allocated; the array part has not been cut yet. -/
structure Allocated (old : Table N) (n : Nat) (t : Table N) : Prop where
  empty : EmptyNodes t
  sizearray : t.sizearray = max old.sizearray n
  kept : ∀ i < old.sizearray, t.array i = old.array i
  cleared : ∀ i, old.sizearray ≤ i → i < n → t.array i = .nil

/-- The number of elements that go to the new hash part. -/
def resizeNeed (old : Table N) (n : Nat) : Nat :=
  (old.arrayIntsFrom (n + 1)).length + old.hashNeed n old.sizenode

/-- After the array part is cut, the table holds what the old array part held. -/
theorem Allocated.shrinkArray_spec {old : Table N} {n : Nat} (ok : Bool) (allocated : Allocated old n t)
    (inInt : InInt (old.sizearray : Int)) (small : n ≤ bound) (room : (old.arrayIntsFrom (n + 1)).length ≤ t.room) :
    ∃ t', shrinkArray mp grow ok old.sizearray n t =
        (if n < old.sizearray ∧ 0 < n ∧ ok = false then .error .memory t' else .ok () t') ∧
      Arranged bound mp t' ∧ t'.sizearray = n ∧ t.room ≤ t'.room + (old.arrayIntsFrom (n + 1)).length ∧
      (∀ k, t'.value mp k = if old.InArray k then old.array (arrayindex k - 1).toNat else .nil) ∧
      (n = old.sizearray → t' = t) := by
  have emptied : EmptyNodes { t with sizearray := n } :=
    ⟨allocated.empty.node, allocated.empty.lastfree, allocated.empty.dummy⟩
  have wf : Arranged bound mp { t with sizearray := n } := emptied.arranged small mp
  have start : ∀ k, ({ t with sizearray := n } : Table N).value mp k =
      if 1 ≤ arrayindex k ∧ arrayindex k ≤ n then t.array (arrayindex k - 1).toNat else .nil :=
    emptied.value_eq
  unfold shrinkArray
  by_cases shrinks : n < old.sizearray
  · rw [if_pos shrinks]
    simp only [shrinks, true_and]
    have same : ({ t with sizearray := n } : Table N).sliceNeed n (old.sizearray - n) =
        (old.arrayIntsFrom (n + 1)).length := by
      rw [sliceNeed_eq, arrayIntsFrom, show old.sizearray + 1 - (n + 1) = old.sizearray - n by omega]
      congr 1
      apply List.filter_congr
      intro k member
      rw [List.mem_range'_1] at member
      rw [allocated.kept (k - 1) (by omega)]
    obtain ⟨t', ran, wf', parts, room', values⟩ :=
      @reinsertArray_spec _ _ bound mp grow (old.sizearray - n) n { t with sizearray := n } wf (le_refl _)
        (by rwa [show n + (old.sizearray - n) = old.sizearray by omega]) (by rw [same]; exact room)
    rw [same] at room'
    refine ⟨t', bind_of_ok ran, wf', parts.sizearray, room', fun k => ?_, fun same => by omega⟩
    rw [values k, start k]
    by_cases inside : old.InArray k
    · have range : 1 ≤ arrayindex k ∧ arrayindex k ≤ old.sizearray := inside
      rw [if_pos inside, allocated.kept (arrayindex k - 1).toNat (by omega)]
      by_cases isNil : old.array (arrayindex k - 1).toNat = .nil
      · rw [isNil]
        simp [TValue.isNil]
      · have isNil' : (old.array (arrayindex k - 1).toNat).isNil = false := by simpa using isNil
        by_cases low : arrayindex k ≤ n
        · rw [if_neg (by omega), if_pos ⟨range.1, low⟩]
        · rw [if_pos ⟨by omega, isNil'⟩]
    · have range : ¬ (1 ≤ arrayindex k ∧ arrayindex k ≤ old.sizearray) := inside
      rw [if_neg inside, if_neg (by omega), if_neg (by omega)]
  · rw [if_neg shrinks]
    simp only [shrinks, false_and, if_false]
    have size : t.sizearray = n := by
      rw [allocated.sizearray]
      omega
    have same : ({ t with sizearray := n } : Table N) = t := by
      cases t
      simp only at size
      subst size
      rfl
    rw [same] at wf start
    refine ⟨t, rfl, wf, size, Nat.le_add_right .., fun k => ?_, fun _ => rfl⟩
    rw [start k]
    by_cases inside : old.InArray k
    · have range : 1 ≤ arrayindex k ∧ arrayindex k ≤ old.sizearray := inside
      rw [if_pos inside, if_pos (by omega), allocated.kept (arrayindex k - 1).toNat (by omega)]
    · have range : ¬ (1 ≤ arrayindex k ∧ arrayindex k ≤ old.sizearray) := inside
      rw [if_neg inside]
      by_cases added : 1 ≤ arrayindex k ∧ arrayindex k ≤ n
      · rw [if_pos added, allocated.cleared (arrayindex k - 1).toNat (by omega) (by omega)]
      · rw [if_neg added]

/-- With enough room the second loop brings every element of the hash part back. -/
theorem reinsertAll_spec {old : Table N} {n : Nat} (wfOld : Arranged bound mp old) (wf : Arranged bound mp t)
    (size : t.sizearray = n) (room : old.hashNeed n old.sizenode ≤ t.room)
    (values : ∀ k, t.value mp k = if old.InArray k then old.array (arrayindex k - 1).toNat else .nil) :
    ∃ t', reinsertNodes mp grow old.node old.sizenode t = .ok () t' ∧ Arranged bound mp t' ∧ SameParts t t' ∧
      t.room ≤ t'.room + old.hashNeed n old.sizenode ∧ ∀ k, t'.value mp k = old.value mp k := by
  obtain ⟨t', ran', wf', parts', room', moved, kept⟩ :=
    @reinsertNodes_spec _ _ bound mp grow old (fun j used => wfOld.isKey fun free => used (wfOld.unused free))
      old.sizenode t wf (by rw [size]; omega)
  rw [size] at room'
  refine ⟨t', ran', wf', parts', room', fun k => ?_⟩
  by_cases present : ∃ j, (old.node j).val ≠ .nil ∧ rawequalObj (old.keys j) k = true
  · obtain ⟨j, used, equal⟩ := present
    have usedKey : old.keys j ≠ .nil := fun free => used (wfOld.unused free)
    have inside : j < old.sizenode := by
      by_contra outside
      exact usedKey (wfOld.scatter.outside (Nat.not_lt.1 outside))
    -- no other node has an equal key, so the value stays
    have alone : ∀ j' < j, (old.node j').val ≠ .nil → rawequalObj (old.keys j') k = false := by
      intro j' earlier used'
      by_contra also
      have usedKey' : old.keys j' ≠ .nil := fun free => used' (wfOld.unused free)
      have := wfOld.scatter.distinct usedKey' usedKey
        (rawequalObj_trans (show rawequalObj (old.keys j') k = true by simpa using also) (rawequalObj_symm equal))
      omega
    rw [moved k j inside used equal alone, wfOld.value_node usedKey equal]
  · have others : ∀ j, (old.node j).val ≠ .nil → rawequalObj (old.keys j) k = false := fun j used => by
      simpa using fun equal => present ⟨j, used, equal⟩
    rw [kept k fun j _ => others j, values k]
    by_cases inside : old.InArray k
    · rw [if_pos inside, value_of_inArray inside]
    · rw [if_neg inside]
      by_contra nonNil
      obtain ⟨key', equal, j, rfl, val, -, some⟩ := (wfOld.value_eq_iff inside (Ne.symm nonNil)).1 rfl
      rw [others j (val ▸ some)] at equal
      cases equal

/-- The table with an array part of at least size `n`. -/
def grown (old : Table N) (n : Nat) : Table N :=
  if old.sizearray < n then
    { old with array := fun i => if i < old.sizearray then old.array i else .nil, sizearray := n }
  else old

omit [GafqNumber N] in
theorem growArray_eq (ok : Bool) (old : Table N) (n : Nat) :
    growArray ok n old = if old.sizearray < n ∧ ok = false then .error .memory old else .ok () (old.grown n) := by
  unfold growArray grown setarrayvector
  by_cases grows : old.sizearray < n
  · cases ok <;> simp [grows]
  · simp [grows]

/-- How far a failed `resize` to the sizes `n` and `nh` has come. -/
inductive ResizeFails (mp : MainPosition N) (mem : Memory) (old : Table N) (n nh : Nat) : TableError → Table N → Prop
  /-- the array part could not grow -/
  | array (grows : old.sizearray < n) (short : mem.array = false) : ResizeFails mp mem old n nh .memory old
  /-- the array part has grown, but there is no new node vector -/
  | nodes {e : TableError} (grew : ¬ (old.sizearray < n ∧ mem.array = false)) (some : nh ≠ 0)
      (kind : e = .tableOverflow ∧ maxBits < ceillog2 nh ∨ e = .memory ∧ mem.nodes = false) :
      ResizeFails mp mem old n nh e (old.grown n)
  /-- the array part could not be cut; the old nodes have not been looked at -/
  | shrink {t' : Table N} (created : nh = 0 ∨ mem.nodes = true ∧ ceillog2 nh ≤ maxBits) (shrinks : n < old.sizearray)
      (short : mem.shrink = false)
      (values : ∀ k, t'.value mp k = if old.InArray k then old.array (arrayindex k - 1).toNat else .nil) :
      ResizeFails mp mem old n nh .memory t'

/-- A `resize` fails, or it comes to the old nodes with what the old array part held. -/
theorem resize_cases {old : Table N} (inInt : InInt (old.sizearray : Int)) (mem : Memory) {n nh : Nat} (small : n ≤ bound)
    (enough : (old.arrayIntsFrom (n + 1)).length ≤ nh) :
    (∃ t, resizeWith mp grow mem n nh old = reinsertNodes mp grow old.node old.sizenode t ∧ Arranged bound mp t ∧
      t.sizearray = n ∧ nh ≤ t.room + (old.arrayIntsFrom (n + 1)).length ∧
      (∀ k, t.value mp k = if old.InArray k then old.array (arrayindex k - 1).toNat else .nil) ∧
      (n = old.sizearray → t.array = old.array)) ∨
    ∃ e t', resizeWith mp grow mem n nh old = .error e t' ∧ ResizeFails mp mem old n nh e t' := by
  have first := growArray_eq mem.array old n
  have started : resizeWith mp grow mem n nh old = (growArray mem.array n >>= fun _ => setnodevector mem.nodes nh >>=
      fun _ => shrinkArray mp grow mem.shrink old.sizearray n >>=
      fun _ => reinsertNodes mp grow old.node old.sizenode) old := rfl
  rw [started]
  by_cases failed : old.sizearray < n ∧ mem.array = false
  · rw [if_pos failed] at first
    exact .inr ⟨_, _, bind_of_error first, .array failed.1 failed.2⟩
  rw [if_neg failed] at first
  rw [bind_of_ok first]
  cases setnodevector_spec mem.nodes nh (old.grown n) with
  | inr failed' =>
    obtain ⟨e, ran, some, kind⟩ := failed'
    exact .inr ⟨e, _, bind_of_error ran, .nodes failed some kind⟩
  | inl done =>
    obtain ⟨t₁, ran₁, created, empty, array, size, large⟩ := done
    have allocated : Allocated old n t₁ := by
      refine ⟨empty, ?_, ?_, ?_⟩
      · rw [size, grown]
        split
        · simp only
          omega
        · omega
      · intro i inside
        rw [array, grown]
        split
        · simp [inside]
        · rfl
      · intro i outside inside
        rw [array, grown, if_pos (by omega)]
        simp [Nat.not_lt.2 outside]
    obtain ⟨t₂, ran₂, wf₂, size₂, room₂, values₂, same₂⟩ :=
      @Allocated.shrinkArray_spec _ _ bound mp t₁ grow old n mem.shrink allocated inInt small (by omega)
    rw [bind_of_ok ran₁]
    by_cases short : n < old.sizearray ∧ 0 < n ∧ mem.shrink = false
    · rw [if_pos short] at ran₂
      exact .inr ⟨_, t₂, bind_of_error ran₂, .shrink created short.1 short.2.2 values₂⟩
    · rw [if_neg short] at ran₂
      refine .inl ⟨t₂, bind_of_ok ran₂, wf₂, size₂, by omega, values₂, fun same => ?_⟩
      rw [same₂ same, array, grown, if_neg (by omega)]

/-- A `resize` that does not fail keeps the contents and leaves the rest of the nodes free. -/
theorem Arranged.resize_spec {old : Table N} (wfOld : Arranged bound mp old) (inInt : InInt (bound : Int)) (mem : Memory)
    {n nh extra : Nat} (small : n ≤ bound) (enough : old.resizeNeed n + extra ≤ nh) :
    (∃ t', resizeWith mp grow mem n nh old = .ok () t' ∧ Arranged bound mp t' ∧ t'.sizearray = n ∧ extra ≤ t'.room ∧
      (∀ k, t'.value mp k = old.value mp k) ∧ (n = old.sizearray → ∀ i, n ≤ i → t'.array i = old.array i)) ∨
    ∃ e t', resizeWith mp grow mem n nh old = .error e t' ∧ ResizeFails mp mem old n nh e t' := by
  have size := wfOld.sizearray_le
  have inInt' : InInt (old.sizearray : Int) := by
    have := inInt.2
    constructor <;> omega
  unfold resizeNeed at enough
  obtain ⟨t, ran, wf, size, room, values, same⟩ | failed :=
    @resize_cases _ _ bound mp grow old inInt' mem n nh small (by omega)
  · obtain ⟨t', ran', wf', parts, room', values'⟩ :=
      @reinsertAll_spec _ _ bound mp t grow old n wfOld wf size (by omega) values
    refine .inl ⟨t', ran.trans ran', wf', parts.sizearray.trans size, by omega, values', fun unchanged i outside => ?_⟩
    rw [parts.beyond i (size.symm ▸ outside), same unchanged]
  · exact .inr failed

end Table

end Gafq
