import Gafq.Verified.IntactTables

/-! # A rehash inside a rehash

When the array part is larger than `numusearray` looks at, `rehash` may ask for too few nodes, and an insertion of
the loops of `resize` rehashes again.  The inner rehash asks for the array part that the outer one has made, so it
leaves the elements alone that the outer loop still has to move, and needs no other rehash.
-/

namespace Gafq

open Base

variable {N : Type} [GafqNumber N]

namespace Table

variable {bound depth n m i : Nat} {mp : MainPosition N} {mem : Memory} {t t' old : Table N} {key k v : TValue N} {slot : Slot}
  {grow : TValue N → TableM N Slot} {e : TableError}

/-- An allocation has failed, or a part would be too large. -/
def Exhausted (e : TableError) : Prop := e = .memory ∨ e = .tableOverflow

/-- Different keys have values, as many as there are nodes in the largest node vector. -/
def Crowded (mp : MainPosition N) (t : Table N) : Prop :=
  ∃ keys : List (TValue N), 2 ^ maxBits ≤ keys.length ∧ keys.Pairwise (fun a b => rawequalObj a b = false) ∧
    ∀ k ∈ keys, t.value mp k ≠ .nil

/-- An insertion fails since an allocation has failed, or since the table holds too much for a node vector. -/
def Refused (mp : MainPosition N) (mem : Memory) (t : Table N) (e : TableError) : Prop :=
  e = .memory ∧ mem ≠ {} ∨ e = .tableOverflow ∧ Crowded mp t

theorem Refused.exhausted (refused : Refused mp mem t e) : Exhausted e := refused.imp And.left And.left

theorem Crowded.mono (crowded : Crowded mp t) (more : ∀ k, t.value mp k ≠ .nil → t'.value mp k ≠ .nil) : Crowded mp t' := by
  obtain ⟨keys, many, apart, values⟩ := crowded
  exact ⟨keys, many, apart, fun k among => more k (values k among)⟩

theorem Refused.mono (refused : Refused mp mem t e) (more : ∀ k, t.value mp k ≠ .nil → t'.value mp k ≠ .nil) :
    Refused mp mem t' e := refused.imp_right fun overflow => ⟨overflow.1, overflow.2.mono more⟩

theorem ResizeFails.refused {nh : Nat} (fails : ResizeFails mp mem old n nh e t') (crowded : maxBits < ceillog2 nh → Crowded mp old) :
    Refused mp mem old e := by
  cases fails with
  | array _ short => exact .inl ⟨rfl, by rintro rfl; cases short⟩
  | shrink _ _ short => exact .inl ⟨rfl, by rintro rfl; cases short⟩
  | nodes _ _ kind =>
    obtain ⟨rfl, overflow⟩ | ⟨rfl, short⟩ := kind
    · exact .inr ⟨rfl, crowded overflow⟩
    · exact .inl ⟨rfl, by rintro rfl; cases short⟩

/-- The keys of the first `i` nodes that are in use. -/
def liveNodeKeys (t : Table N) (i : Nat) : List (TValue N) := ((List.range i).filter fun j => !(t.node j).val.isNil).map t.keys

omit [GafqNumber N] in
theorem liveNodeKeys_length (t : Table N) (i : Nat) : (t.liveNodeKeys i).length = t.hashUsed i := by
  induction i with
  | zero => rfl
  | succ i inductionHypothesis =>
    rw [liveNodeKeys, List.length_map] at inductionHypothesis ⊢
    rw [List.range_succ, List.filter_append, List.length_append, inductionHypothesis, hashUsed]
    cases empty : (t.node i).val.isNil <;> simp [empty, Nat.add_comm]

/-- What a rehash counts are different keys with values. -/
theorem crowded_of_counted (inInt : InInt (t.sizearray : Int)) (apart : ∀ i, (t.node i).val ≠ .nil → ¬ t.InArray (t.keys i))
    (distinct : ∀ i j, (t.node i).val ≠ .nil → (t.node j).val ≠ .nil → rawequalObj (t.keys i) (t.keys j) = true → i = j)
    (found : ∀ i, (t.node i).val ≠ .nil → t.value mp (t.keys i) = (t.node i).val)
    (overflow : maxBits < ceillog2 (t.rehashSizes key).2) : Crowded mp t := by
  have many : 2 ^ maxBits ≤ t.cut.arrayInts.length + t.hashUsed t.sizenode := by
    rw [rehashSizes_counted] at overflow
    by_contra few
    have fits : ceillog2 (t.totaluse - (computesizes (tally (t.countedInts key)) (t.countedInts key).length).2) ≤ maxBits := by
      by_cases none : t.totaluse - (computesizes (tally (t.countedInts key)) (t.countedInts key).length).2 = 0
      · rw [none]
        exact Nat.zero_le _
      · rw [ceillog2_le_iff (by omega), totaluse_eq]
        omega
    simp only at overflow
    omega
  have element (k : Nat) (among : k ∈ t.cut.arrayInts) : InInt (k : Int) ∧ t.InArray (.number (castNum (k : Int))) ∧
      t.array (k - 1) ≠ .nil := by
    obtain ⟨⟨low, high⟩, some⟩ := mem_arrayIntsFrom.mp among
    have size : t.cut.sizearray ≤ t.sizearray := Nat.min_le_left ..
    have inIntK : InInt (k : Int) := by
      have := inInt.2
      constructor <;> omega
    refine ⟨inIntK, ?_, some⟩
    rw [InArray, arrayindex_castNum inIntK]
    omega
  have node (k : TValue N) (among : k ∈ t.liveNodeKeys t.sizenode) : ∃ i, t.keys i = k ∧ (t.node i).val ≠ .nil := by
    obtain ⟨i, inUse, rfl⟩ := List.mem_map.mp among
    exact ⟨i, rfl, by simpa using (List.mem_filter.mp inUse).2⟩
  refine ⟨t.cut.arrayInts.map (fun k => .number (castNum (k : Int))) ++ t.liveNodeKeys t.sizenode, ?_, ?_, ?_⟩
  · rwa [List.length_append, List.length_map, liveNodeKeys_length]
  · rw [List.pairwise_append]
    refine ⟨?_, ?_, ?_⟩
    · rw [List.pairwise_map]
      have nodup : t.cut.arrayInts.Nodup := List.Nodup.filter _ List.nodup_range'
      refine List.Pairwise.imp_of_mem ?_ nodup
      intro a b amongA amongB differ
      by_contra equal
      have index := arrayindex_congr (show rawequalObj (.number (castNum (a : Int)) : TValue N) _ = true by simpa using equal)
      rw [arrayindex_castNum (element a amongA).1, arrayindex_castNum (element b amongB).1] at index
      exact differ (by omega)
    · rw [liveNodeKeys, List.pairwise_map]
      refine List.Pairwise.imp_of_mem ?_ (List.nodup_range.filter _)
      intro i j usedI usedJ differ
      by_contra equal
      exact differ (distinct i j (by simpa using (List.mem_filter.mp usedI).2) (by simpa using (List.mem_filter.mp usedJ).2)
        (by simpa using equal))
    · intro a amongA b amongB
      obtain ⟨k, counted, rfl⟩ := List.mem_map.mp amongA
      obtain ⟨i, rfl, used⟩ := node b amongB
      by_contra equal
      apply apart i used
      have index := arrayindex_congr (show rawequalObj (.number (castNum (k : Int))) (t.keys i) = true by simpa using equal)
      rw [InArray, ← index]
      exact (element k counted).2.1
  · intro k among
    obtain array | hash := List.mem_append.mp among
    · obtain ⟨k, counted, rfl⟩ := List.mem_map.mp array
      obtain ⟨inIntK, inArray, some⟩ := element k counted
      rwa [value_of_inArray inArray, arrayindex_castNum inIntK, show ((k : Int) - 1).toNat = k - 1 by omega]
    · obtain ⟨i, rfl, used⟩ := node k hash
      rwa [found i used]

theorem Intact.crowded (intact : Intact mp t) (overflow : maxBits < ceillog2 (t.rehashSizes key).2) : Crowded mp t := by
  refine crowded_of_counted intact.chained.sizearray_inInt (fun i => intact.apart) (fun i j => intact.distinct) (fun i used => ?_)
    overflow
  have present := intact.keys_ne_nil used
  exact intact.value_node present (intact.live used) (intact.chained.isKey present).self (intact.apart used)

theorem WellFormed.refused (wf : WellFormed mp t) (fails : FailsInResize mp mem t key e t') : Refused mp mem t e := by
  obtain ⟨lastfree, flags, fails⟩ := fails
  have present {i : Nat} (used : (t.node i).val ≠ .nil) : t.keys i ≠ .nil := fun free => used (wf.unused free)
  have inInt : InInt (t.sizearray : Int) := by
    have size : t.sizearray ≤ 2 ^ 26 := wf.sizearray_le
    constructor <;> omega
  have crowded (overflow : maxBits < ceillog2 (t.rehashSizes key).2) : Crowded mp t := by
    refine crowded_of_counted inInt (fun i used => wf.apart (present used)) (fun i j usedI usedJ equal => ?_) (fun i used => ?_)
      overflow
    · have found := wf.search_node (present usedI) equal
      rw [wf.search_node (present usedJ) (wf.isKey (present usedJ)).self] at found
      exact (Slot.node.inj found).symm
    · exact wf.value_node (present used) (wf.isKey (present used)).self
  refine (fails.refused fun overflow => (crowded overflow).mono fun k some => ?_).mono fun k some => ?_
  · rwa [setFields_value]
  · rwa [setFields_value] at some

/-! ## An array part that stays -/

/-- The array part has the same size, and what lies behind it has not changed. -/
structure Stays (t t' : Table N) : Prop where
  sizearray : t'.sizearray = t.sizearray
  beyond : ∀ i, t.sizearray ≤ i → t'.array i = t.array i

theorem Places.stays (placed : Places bound mp t key slot t') : Stays t t' :=
  ⟨placed.sizearray, fun i _ => congrFun placed.array i⟩

theorem WellFormed.rehashAndSet_stays (wf : WellFormed mp t) (fresh : Fresh t key)
    (same : (t.rehashSizes key).1 = t.sizearray) (ran : rehashAndSet mp mem (depth + 1) key t = .ok slot t') : Stays t t' := by
  obtain ⟨-, small, nodes⟩ := wf.rehashSizes_spec fresh
  have enough : t.resizeNeed (t.rehashSizes key).1 + keyNeed (t.rehashSizes key).1 key ≤ (t.rehashSizes key).2 := by
    rw [resizeNeed]
    omega
  change (resizeWith mp (rehashAndSet mp mem depth) mem (t.rehashSizes key).1 (t.rehashSizes key).2 >>= fun _ =>
    setWith mp (rehashAndSet mp mem depth) key) t = .ok slot t' at ran
  obtain ⟨t₁, ran₁, wf₁, size, room, -, beyond⟩ | ⟨e, t₁, ran₁, -⟩ :=
    @Arranged.resize_spec _ _ _ mp (rehashAndSet mp mem depth) t wf (by decide) mem _ _ _ small enough
  · obtain ⟨slot', t₂, ran₂, placed⟩ := wf₁.setWith_places fresh.isKey (canTake_of_room size room) (rehashAndSet mp mem depth)
    rw [bind_of_ok ran₁, ran₂] at ran
    obtain ⟨rfl, rfl⟩ := EStateM.Result.ok.inj ran
    refine ⟨placed.sizearray.trans (size.trans same), fun i outside => ?_⟩
    rw [placed.array]
    exact beyond same i (same.symm ▸ outside)
  · rw [bind_of_error ran₁] at ran
    cases ran

theorem WellFormed.newkey_stays (wf : WellFormed mp t) (fresh : Fresh t key) (same : (t.rehashSizes key).1 = t.sizearray)
    (ran : newkeyWith mp (rehashAndSet mp mem (depth + 1)) key t = .ok slot t') : Stays t t' := by
  by_cases room : 0 < t.room
  · obtain ⟨slot', t₁, ran₁, placed⟩ := wf.newkey_places fresh room (rehashAndSet mp mem (depth + 1))
    rw [ran₁] at ran
    obtain ⟨rfl, rfl⟩ := EStateM.Result.ok.inj ran
    exact placed.stays
  · unfold newkeyWith at ran
    by_cases taken : (!(t.node (mp.pos t.lsizenode key)).val.isNil || t.isDummy) = true
    · obtain ⟨lastfree, none, low, nonPositive⟩ := getfreepos_none (by omega) wf
      have wf' := wf.setLastfree (by omega) low nonPositive
      simp only [taken, if_true, none] at ran
      have stays := wf'.rehashAndSet_stays ⟨fresh.isKey, fresh.absent, fresh.outside⟩
        ((congrArg Prod.fst (rehashSizes_congr wf.sizearray_le lastfree t.flags)).trans same) ran
      exact ⟨stays.sizearray, stays.beyond⟩
    · simp only [taken, if_false, Bool.false_eq_true] at ran
      simp only [Bool.or_eq_true, Bool.not_eq_true', TValue.isNil_eq_false, not_or, not_not, Bool.not_eq_true] at taken
      obtain ⟨rfl, rfl⟩ := EStateM.Result.ok.inj ran
      exact (wf.setKey_places fresh taken.2 taken.1).stays

/-- A store under an index behind the array part. -/
theorem WellFormed.storeAt_behind (wf : WellFormed mp t) {j : Int} (inInt : InInt j) (behind : t.sizearray < j)
    (same : Fresh t (.number (castNum j)) → (t.rehashSizes (.number (castNum j))).1 = t.sizearray) (v : TValue N) :
    (∃ t', storeAt (setnumWith mp (rehashAndSet mp mem (depth + 1)) j) v t = .ok () t' ∧ WellFormed mp t' ∧ Stays t t' ∧
      ∀ k, t'.value mp k = if rawequalObj k (.number (castNum j)) then v else t.value mp k) ∨
    ∃ e t', storeAt (setnumWith mp (rehashAndSet mp mem (depth + 1)) j) v t = .error e t' ∧ Refused mp mem t e := by
  have isKey := @isKey_castNum N _ j inInt
  have outside : ¬ t.InArray (.number (castNum j)) := by
    rw [InArray, arrayindex_castNum inInt]
    omega
  obtain ⟨slot, t', ran, provided⟩ | ⟨e, t', ran, -, lastfree, flags, fails⟩ := wf.setnumWith_inserts inInt mem depth
  · have stays : Stays t t' := by
      simp only [setnumWith, getnum_castNum t inInt] at ran
      by_cases missing : t.getSlot mp (.number (castNum j)) = .nilobject
      · rw [if_neg (by simpa using missing)] at ran
        have fresh := wf.fresh_of_getSlot isKey missing
        exact wf.newkey_stays fresh (same fresh) ran
      · rw [if_pos missing] at ran
        obtain ⟨-, rfl⟩ := EStateM.Result.ok.inj ran
        exact ⟨rfl, fun _ _ => rfl⟩
    have slotFor := provided.slotFor
    refine .inl ⟨_, storeAt_of_ok ran, provided.wf.write slotFor v, ?_, fun k => ?_⟩
    · cases slotFor with
      | array inside =>
        rw [InArray, stays.sizearray] at inside
        exact absurd inside outside
      | node => exact ⟨stays.sizearray, stays.beyond⟩
    · rw [provided.wf.write_value slotFor, provided.value]
  · exact .inr ⟨e, t', bind_of_error ran, wf.refused ⟨lastfree, flags, fails⟩⟩

/-! ## The size of the array part -/

/-- The table holds the first `i` elements of the old array part. -/
structure Moved (mp : MainPosition N) (old : Table N) (n i : Nat) (t : Table N) : Prop where
  wf : WellFormed mp t
  sizearray : t.sizearray = n
  beyond : ∀ j, n ≤ j → t.array j = old.array j
  value : ∀ k, t.value mp k = if 1 ≤ arrayindex k ∧ arrayindex k ≤ i then old.array (arrayindex k - 1).toNat else .nil

omit [GafqNumber N] in
/-- The elements that `numusearray` looks at. -/
theorem mem_cut_arrayInts {k : Nat} (large : maxASize ≤ old.sizearray) :
    k ∈ old.cut.arrayInts ↔ (1 ≤ k ∧ k ≤ maxASize) ∧ old.array (k - 1) ≠ .nil := by
  rw [arrayInts, mem_arrayIntsFrom, cut]
  simp only [Nat.min_eq_right large]

omit [GafqNumber N] in
theorem cut_arrayKeys (large : maxASize ≤ old.sizearray) : ArrayKeys old.cut.arrayInts where
  nodup := List.Nodup.filter _ List.nodup_range'
  positive k member := ((mem_cut_arrayInts large).mp member).1.1
  small k member := ((mem_cut_arrayInts large).mp member).1.2

theorem Moved.value_ne_nil (moved : Moved mp old n i t) (inside : i ≤ old.sizearray) (some : t.value mp k ≠ .nil) :
    old.value mp k ≠ .nil := by
  rw [moved.value k] at some
  split at some
  · next bounds =>
    have inArray : old.InArray k := ⟨bounds.1, by omega⟩
    rwa [value_of_inArray inArray]
  · exact absurd rfl some

/-- All integers that the inner rehash counts are indices of old elements, and those up to `n` are still there. -/
theorem Moved.rehashSizes (moved : Moved mp old n i t) (large : maxASize ≤ old.sizearray)
    (optimal : OptimalSize old.cut.arrayInts n) (inside : n ≤ i) (inInt : InInt ((i : Int) + 1)) (some : old.array i ≠ .nil)
    (fresh : Fresh t (.number (castNum ((i : Int) + 1)))) :
    (t.rehashSizes (.number (castNum ((i : Int) + 1)))).1 = t.sizearray := by
  have small : t.sizearray ≤ maxASize := moved.wf.sizearray_le
  have counted := moved.wf.intKeys_arrayKeys fresh
  have elements (k : Nat) (low : 1 ≤ k) (high : k ≤ n) : t.array (k - 1) = old.array (k - 1) := by
    have inInt : InInt (k : Int) := by
      have := (inInt).2
      constructor <;> omega
    have index := @arrayindex_castNum N _ k inInt
    have inArray : t.InArray (.number (castNum (k : Int))) := by
      rw [InArray, index, moved.sizearray]
      omega
    have found := moved.value (.number (castNum (k : Int)))
    rw [value_of_inArray inArray, index, if_pos (by omega)] at found
    rwa [show ((k : Int) - 1).toNat = k - 1 by omega] at found
  have sub : t.intKeys (.number (castNum ((i : Int) + 1))) ⊆ old.cut.arrayInts := by
    intro k member
    have bounds := counted.positive k member
    have high := counted.small k member
    rw [mem_cut_arrayInts large]
    refine ⟨⟨bounds, high⟩, ?_⟩
    simp only [intKeys, List.mem_append, arrayInts, mem_arrayIntsFrom, mem_hashInts, mem_keyInts] at member
    obtain ⟨range, used⟩ | ⟨j, -, used, -, index⟩ | ⟨-, index⟩ := member
    · rwa [← elements k bounds (moved.sizearray ▸ range.2)]
    · have present : t.keys j ≠ .nil := fun free => used (moved.wf.unused free)
      have found := moved.value (t.keys j)
      rw [moved.wf.value_node present (moved.wf.isKey present).self, index] at found
      split at found
      · rwa [found, show ((k : Int) - 1).toNat = k - 1 by omega] at used
      · exact absurd found used
    · rw [arrayindex_castNum inInt] at index
      rwa [show k - 1 = i by omega]
  have sup : (old.cut.arrayInts.filter fun k => decide (k ≤ n)) ⊆ t.intKeys (.number (castNum ((i : Int) + 1))) := by
    intro k member
    simp only [List.mem_filter, decide_eq_true_eq] at member
    obtain ⟨⟨low, -⟩, used⟩ := (mem_cut_arrayInts large).mp member.1
    refine List.mem_append_left _ (mem_arrayIntsFrom.mpr ⟨⟨low, moved.sizearray.symm ▸ member.2⟩, ?_⟩)
    rwa [elements k low member.2]
  have fewer (j : Nat) : upTo (t.intKeys (.number (castNum ((i : Int) + 1)))) j ≤ upTo old.cut.arrayInts j :=
    (counted.nodup.subperm sub).countP_le _
  have enough : upTo old.cut.arrayInts n ≤ upTo (t.intKeys (.number (castNum ((i : Int) + 1)))) n := by
    have kept := (((cut_arrayKeys large).nodup.filter _).subperm sup).countP_le fun k => decide (k ≤ n)
    rwa [List.countP_filter, show (fun k => decide (k ≤ n) && decide (k ≤ n)) = fun k => decide (k ≤ n) by simp] at kept
  have optimal' : OptimalSize (t.intKeys (.number (castNum ((i : Int) + 1)))) n := by
    refine ⟨optimal.power.imp_right ?_, fun j more => ?_⟩
    · rintro ⟨j, power, more⟩
      exact ⟨j, power, lt_of_lt_of_le more enough⟩
    · exact optimal.largest j (lt_of_lt_of_le more (fewer _))
  rw [rehashSizes_eq small, moved.sizearray]
  exact (computesizes_spec counted fun _ => rfl).1.unique optimal'

/-! ## The loops of `resize` -/

/-- The vanishing slice of a large array part goes to the hash part, or there is no room for it. -/
theorem Moved.reinsertArray (large : maxASize ≤ old.sizearray) (optimal : OptimalSize old.cut.arrayInts n)
    (range : InInt ((i + m : Nat) : Int)) (inside : n ≤ i) (within : i + m ≤ old.sizearray) (moved : Moved mp old n i t) :
    (∃ t', reinsertArray mp (rehashAndSet mp mem (depth + 1)) i m t = .ok () t' ∧ Moved mp old n (i + m) t') ∨
    ∃ e t', reinsertArray mp (rehashAndSet mp mem (depth + 1)) i m t = .error e t' ∧ Refused mp mem old e := by
  induction m generalizing i t with
  | zero => exact .inl ⟨t, rfl, moved⟩
  | succ m inductionHypothesis =>
    have range' : InInt ((i + 1 + m : Nat) : Int) := by rwa [show i + 1 + m = i + (m + 1) by omega]
    have inInt : InInt ((i : Int) + 1) := by
      have := range.2
      constructor <;> omega
    rw [show i + (m + 1) = i + 1 + m by omega]
    unfold Table.reinsertArray
    simp only [bind, EStateM.bind, get, getThe, MonadStateOf.get, EStateM.get]
    by_cases isNil : t.array i = .nil
    · have moved' : Moved mp old n (i + 1) t := by
        refine ⟨moved.wf, moved.sizearray, moved.beyond, fun k => ?_⟩
        rw [moved.value k]
        by_cases here : arrayindex k = (i : Int) + 1
        · rw [if_neg (by omega), if_pos (by omega), show (arrayindex k - 1).toNat = i by omega, ← moved.beyond i inside, isNil]
        · have same : arrayindex k ≤ ((i + 1 : Nat) : Int) ↔ arrayindex k ≤ (i : Int) := by omega
          simp only [same]
      have rest := inductionHypothesis range' (by omega) (by omega) moved'
      simpa [isNil, TValue.isNil, pure, EStateM.pure] using rest
    · have test : (t.array i).isNil = false := by simpa using isNil
      have some : old.array i ≠ .nil := by rwa [← moved.beyond i inside]
      have behind : (t.sizearray : Int) < (i : Int) + 1 := by
        rw [moved.sizearray]
        omega
      simp only [test, Bool.not_false, if_true]
      obtain ⟨t₁, ran, wf, stays, value⟩ | ⟨e, t₁, ran, refused⟩ :=
        moved.wf.storeAt_behind inInt behind (fun fresh => moved.rehashSizes large optimal inside inInt some fresh) (t.array i)
      · have moved' : Moved mp old n (i + 1) t₁ := by
          refine ⟨wf, stays.sizearray.trans moved.sizearray, fun j outside => ?_, fun k => ?_⟩
          · rw [stays.beyond j (moved.sizearray.symm ▸ outside), moved.beyond j outside]
          · rw [value k, moved.value k]
            by_cases here : arrayindex k = (i : Int) + 1
            · have equal := rawequalObj_symm (rawequal_of_arrayindex (by omega) here)
              rw [if_pos equal, if_pos (by omega), show (arrayindex k - 1).toNat = i by omega, moved.beyond i inside]
            · have other : rawequalObj k (.number (castNum ((i : Int) + 1))) = false := by
                by_contra equal
                have index := arrayindex_congr (show rawequalObj k _ = true by simpa using equal)
                rw [arrayindex_castNum inInt] at index
                exact here index
              have same : arrayindex k ≤ ((i + 1 : Nat) : Int) ↔ arrayindex k ≤ (i : Int) := by omega
              simp only [other, Bool.false_eq_true, if_false, same]
        obtain ⟨t', ran', rest⟩ | ⟨e, t', ran', refused⟩ := inductionHypothesis range' (by omega) (by omega) moved'
        · exact .inl ⟨t', (bind_of_ok ran).trans ran', rest⟩
        · exact .inr ⟨e, t', (bind_of_ok ran).trans ran', refused⟩
      · exact .inr ⟨e, t₁, bind_of_error ran, refused.mono fun k => moved.value_ne_nil (by omega)⟩

/-- Every entry of the old hash part is found again under its key. -/
structure Reinserted (mp : MainPosition N) (old : Table N) (i : Nat) (t t' : Table N) : Prop where
  moved : ∀ k j, j < i → (old.node j).val ≠ .nil → rawequalObj (old.keys j) k = true →
    (∀ j' < j, (old.node j').val ≠ .nil → rawequalObj (old.keys j') k = false) → t'.value mp k = (old.node j).val
  kept : ∀ k, (∀ j < i, (old.node j).val ≠ .nil → rawequalObj (old.keys j) k = false) → t'.value mp k = t.value mp k

/-- The old nodes are inserted again, each perhaps with a rehash. -/
theorem WellFormed.reinsertNodes (wf : WellFormed mp t) (isKey : ∀ j, (old.node j).val ≠ .nil → IsKey (old.keys j))
    (found : ∀ j, (old.node j).val ≠ .nil → old.value mp (old.keys j) ≠ .nil)
    (more : ∀ k, t.value mp k ≠ .nil → old.value mp k ≠ .nil) (i : Nat) :
    (∃ t', reinsertNodes mp (rehashAndSet mp mem (depth + 1)) old.node i t = .ok () t' ∧ WellFormed mp t' ∧ Reinserted mp old i t t') ∨
    ∃ e t', reinsertNodes mp (rehashAndSet mp mem (depth + 1)) old.node i t = .error e t' ∧ Refused mp mem old e := by
  induction i generalizing t with
  | zero => exact .inl ⟨t, rfl, wf, fun _ _ early => absurd early (Nat.not_lt_zero _), fun _ _ => rfl⟩
  | succ i inductionHypothesis =>
    unfold Table.reinsertNodes
    by_cases isNil : (old.node i).val = .nil
    · have test : (old.node i).val.isNil = true := by simp [isNil]
      simp only [test, Bool.not_true, Bool.false_eq_true, if_false]
      obtain ⟨t', ran, wf', reinserted⟩ | failed := inductionHypothesis wf more
      · refine .inl ⟨t', ran, wf', fun k j early used equal alone => ?_, fun k others => ?_⟩
        · have other : j ≠ i := by
            rintro rfl
            exact used isNil
          exact reinserted.moved k j (by omega) used equal alone
        · exact reinserted.kept k fun j early => others j (by omega)
      · exact .inr failed
    · have test : (old.node i).val.isNil = false := by simpa using isNil
      simp only [test, Bool.not_false, if_true]
      obtain ⟨slot, t₁, ran, provided⟩ | ⟨e, t₁, ran, -, lastfree, flags, fails⟩ := wf.setWith_inserts (isKey i isNil) mem depth
      · have stored := @storeAt_of_ok _ t t₁ (old.node i).val _ _ ran
        have wf₁ := provided.wf.write provided.slotFor (old.node i).val
        have value (k : TValue N) : (t₁.write slot (old.node i).val).value mp k =
            if rawequalObj k (old.keys i) then (old.node i).val else t.value mp k := by
          rw [provided.wf.write_value provided.slotFor, provided.value]
        have more₁ (k : TValue N) (some : (t₁.write slot (old.node i).val).value mp k ≠ .nil) : old.value mp k ≠ .nil := by
          rw [value k] at some
          split at some
          · next equal =>
            rw [value_of_rawequal old (isKey i isNil) equal]
            exact found i isNil
          · exact more k some
        obtain ⟨t', ran', wf', reinserted⟩ | ⟨e, t', ran', refused⟩ := inductionHypothesis wf₁ more₁
        · refine .inl ⟨t', (bind_of_ok stored).trans ran', wf', fun k j early used equal alone => ?_, fun k others => ?_⟩
          · by_cases here : j = i
            · subst here
              rw [reinserted.kept k alone, value k, if_pos (rawequalObj_symm equal)]
            · exact reinserted.moved k j (by omega) used equal alone
          · have different := others i (by omega) isNil
            rw [rawequalObj_comm] at different
            rw [reinserted.kept k fun j early => others j (by omega), value k, if_neg (by simp [different])]
        · exact .inr ⟨e, t', (bind_of_ok stored).trans ran', refused⟩
      · have failed : storeAt (setWith mp (rehashAndSet mp mem (depth + 1)) (old.node i).key) (old.node i).val t = .error e t₁ :=
          bind_of_error ran
        exact .inr ⟨e, t₁, bind_of_error failed, (wf.refused ⟨lastfree, flags, fails⟩).mono more⟩

theorem isDeadkey_of_rawequal (equal : rawequalObj key k = true) (live : key.isDeadkey = false) : k.isDeadkey = false := by
  cases key <;> cases k <;> first | rfl | cases equal | cases live

/-- The new parts hold what the old ones held. -/
theorem Intact.reinserted_value (intact : Intact mp old) (reinserted : Reinserted mp old old.sizenode t t')
    (value : ∀ k, t.value mp k = if old.InArray k then old.array (arrayindex k - 1).toNat else .nil) (k : TValue N) :
    t'.value mp k = old.value mp k := by
  have below {j : Nat} (used : (old.node j).val ≠ .nil) : j < old.sizenode := by
    obtain ⟨home, scatter⟩ := intact.chained.chains
    by_contra outside
    exact labels_ne_nil.2 (intact.keys_ne_nil used) (scatter.outside (Nat.not_lt.1 outside))
  by_cases inside : old.InArray k
  · have others : ∀ j < old.sizenode, (old.node j).val ≠ .nil → rawequalObj (old.keys j) k = false := by
      intro j _ used
      by_contra equal
      apply intact.apart used
      rw [InArray, arrayindex_congr (show rawequalObj (old.keys j) k = true by simpa using equal)]
      exact inside
    rw [reinserted.kept k others, value k, if_pos inside, value_of_inArray inside]
  · by_cases present : ∃ j, (old.node j).val ≠ .nil ∧ rawequalObj (old.keys j) k = true
    · obtain ⟨j, used, equal⟩ := present
      have alone : ∀ j' < j, (old.node j').val ≠ .nil → rawequalObj (old.keys j') k = false := by
        intro j' earlier used'
        by_contra also
        have same := intact.distinct used' used
          (rawequalObj_trans (show rawequalObj (old.keys j') k = true by simpa using also) (rawequalObj_symm equal))
        omega
      have live := isDeadkey_of_rawequal equal (intact.live used)
      rw [reinserted.moved k j (below used) used equal alone, intact.value_node (intact.keys_ne_nil used) live equal inside]
    · have others : ∀ j, (old.node j).val ≠ .nil → rawequalObj (old.keys j) k = false := fun j used => by
        simpa using fun equal => present ⟨j, used, equal⟩
      by_cases isNil : k = .nil
      · subst isNil
        rfl
      · rw [reinserted.kept k fun j _ => others j, value k, if_neg inside, value_absent isNil inside others]

/-! ## The whole rehash -/

theorem Intact.isKey_of_used (intact : Intact mp t) (j : Nat) (used : (t.node j).val ≠ .nil) : IsKey (t.keys j) :=
  intact.chained.isKey (intact.keys_ne_nil used)

/-- When everything is counted, no insertion of the loops rehashes. -/
theorem Intact.resize_counted (intact : Intact mp old) (countable : old.Countable) (grow : TValue N → TableM N Slot) (ek : TValue N) :
    (∃ t, resizeWith mp grow mem (old.rehashSizes ek).1 (old.rehashSizes ek).2 old = .ok () t ∧ WellFormed mp t ∧
      ∀ k, t.value mp k = old.value mp k) ∨
    ∃ e t, resizeWith mp grow mem (old.rehashSizes ek).1 (old.rehashSizes ek).2 old = .error e t ∧ Refused mp mem old e := by
  have room := countable.room ek
  rw [resizeNeed] at room
  obtain ⟨t, ran, wf, size, free, value, -⟩ | ⟨e, t, ran, fails⟩ :=
    @resize_cases _ _ maxASize mp grow old intact.chained.sizearray_inInt mem _ _ (old.rehashSizes_le ek)
      (show (old.arrayIntsFrom ((old.rehashSizes ek).1 + 1)).length ≤ (old.rehashSizes ek).2 by omega)
  · obtain ⟨t', ran', wf', -, -, moved, kept⟩ :=
      @reinsertNodes_spec _ _ maxASize mp grow old intact.isKey_of_used old.sizenode t wf (by rw [size]; omega)
    refine .inl ⟨t', ran.trans ran', wf', ?_⟩
    exact intact.reinserted_value ⟨moved, fun k others => kept k fun j early => others j early⟩ value
  · exact .inr ⟨e, t, ran, fails.refused intact.crowded⟩

/-- A rehash of a large array part counts the elements that it looks at, and no other index. -/
theorem Intact.rehashSizes_large (intact : Intact mp old) (large : maxASize ≤ old.sizearray) (outside : ¬ old.InArray key) :
    OptimalSize old.cut.arrayInts (old.rehashSizes key).1 := by
  have notCounted {key : TValue N} (outside : ¬ old.InArray key) : keyInts key = [] := by
    rw [List.eq_nil_iff_forall_not_mem]
    intro k member
    rw [mem_keyInts] at member
    exact outside ⟨by omega, by omega⟩
  have nodes : old.hashInts old.sizenode = [] := by
    rw [List.eq_nil_iff_forall_not_mem]
    intro k member
    obtain ⟨j, -, used, member⟩ := mem_hashInts.1 member
    rw [notCounted (intact.apart used)] at member
    cases member
  have counted : old.countedInts key = old.cut.arrayInts := by
    rw [countedInts, nodes, notCounted outside, List.append_nil, List.append_nil]
  rw [rehashSizes_counted, counted]
  exact (computesizes_spec (cut_arrayKeys large) fun _ => rfl).1

theorem Intact.value_key_ne_nil (intact : Intact mp t) (used : (t.node i).val ≠ .nil) : t.value mp (t.keys i) ≠ .nil := by
  have present := intact.keys_ne_nil used
  rwa [intact.value_node present (intact.live used) (intact.chained.isKey present).self (intact.apart used)]

theorem Intact.resize_large (intact : Intact mp old) (large : maxASize < old.sizearray) (outside : ¬ old.InArray key) {nh : Nat}
    (crowded : maxBits < ceillog2 nh → Crowded mp old) :
    (∃ t, resizeWith mp (rehashAndSet mp mem (depth + 1)) mem (old.rehashSizes key).1 nh old = .ok () t ∧ WellFormed mp t ∧
      ∀ k, t.value mp k = old.value mp k) ∨
    ∃ e t, resizeWith mp (rehashAndSet mp mem (depth + 1)) mem (old.rehashSizes key).1 nh old = .error e t ∧ Refused mp mem old e := by
  have optimal := intact.rehashSizes_large (Nat.le_of_lt large) outside
  have small := old.rehashSizes_le key
  generalize (old.rehashSizes key).1 = n at optimal small ⊢
  have started : resizeWith mp (rehashAndSet mp mem (depth + 1)) mem n nh old =
      (growArray mem.array n >>= fun _ => setnodevector mem.nodes nh >>=
        fun _ => shrinkArray mp (rehashAndSet mp mem (depth + 1)) mem.shrink old.sizearray n >>=
        fun _ => Table.reinsertNodes mp (rehashAndSet mp mem (depth + 1)) old.node old.sizenode) old := rfl
  have first : growArray mem.array n old = .ok () old := by
    rw [growArray, if_neg (by omega)]
  rw [started, bind_of_ok first]
  obtain ⟨t₁, ran₁, -, empty, array, size, -⟩ | ⟨e, ran₁, -, kind⟩ := setnodevector_spec mem.nodes nh old
  · rw [bind_of_ok ran₁]
    have emptied : EmptyNodes { t₁ with sizearray := n } := ⟨empty.node, empty.lastfree, empty.dummy⟩
    have start : Moved mp old n n { t₁ with sizearray := n } := by
      refine ⟨emptied.arranged small mp, rfl, fun j _ => congrFun array j, fun k => ?_⟩
      rw [emptied.value_eq k, array]
      rfl
    have whole : n + (old.sizearray - n) = old.sizearray := by omega
    have shrinks : shrinkArray mp (rehashAndSet mp mem (depth + 1)) mem.shrink old.sizearray n t₁ =
        (Table.reinsertArray mp (rehashAndSet mp mem (depth + 1)) n (old.sizearray - n) >>= fun _ => shrinkVector mem.shrink n)
          { t₁ with sizearray := n } := by
      rw [shrinkArray, if_pos (by omega)]
    obtain ⟨t₂, ran₂, moved⟩ | ⟨e, t₂, ran₂, refused⟩ :=
      @Moved.reinsertArray _ _ depth n (old.sizearray - n) n mp mem _ old (Nat.le_of_lt large) optimal
        (by rw [whole]; exact intact.chained.sizearray_inInt) (Nat.le_refl n) (Nat.le_of_eq whole) start
    · rw [whole] at moved
      by_cases short : 0 < n ∧ mem.shrink = false
      · have failed : shrinkArray mp (rehashAndSet mp mem (depth + 1)) mem.shrink old.sizearray n t₁ = .error .memory t₂ := by
          rw [shrinks, bind_of_ok ran₂, shrinkVector, if_pos short]
        exact .inr ⟨_, _, bind_of_error failed, .inl ⟨rfl, by rintro rfl; cases short.2⟩⟩
      · have done : shrinkArray mp (rehashAndSet mp mem (depth + 1)) mem.shrink old.sizearray n t₁ = .ok () t₂ := by
          rw [shrinks, bind_of_ok ran₂, shrinkVector, if_neg short]
        rw [bind_of_ok done]
        obtain ⟨t₃, ran₃, wf, reinserted⟩ | failed :=
          @WellFormed.reinsertNodes _ _ depth mp mem t₂ old moved.wf intact.isKey_of_used (fun j => intact.value_key_ne_nil)
            (fun k => moved.value_ne_nil (Nat.le_refl _)) old.sizenode
        · exact .inl ⟨t₃, ran₃, wf, intact.reinserted_value reinserted moved.value⟩
        · exact .inr failed
    · have failed : shrinkArray mp (rehashAndSet mp mem (depth + 1)) mem.shrink old.sizearray n t₁ = .error e t₂ := by
        rw [shrinks, bind_of_error ran₂]
      exact .inr ⟨e, t₂, bind_of_error failed, refused⟩
  · refine .inr ⟨e, old, bind_of_error ran₁, ?_⟩
    obtain ⟨rfl, overflow⟩ | ⟨rfl, short⟩ := kind
    · exact .inr ⟨rfl, crowded overflow⟩
    · exact .inl ⟨rfl, by rintro rfl; cases short⟩

/-- A rehash and the insertion after it make a place for the key in a table with the same contents. -/
theorem Intact.rehashAndSet_gains (intact : Intact mp t) (held : Held key) (outside : ¬ t.InArray key) :
    (∃ slot t', rehashAndSet mp mem (depth + 2) key t = .ok slot t' ∧ Gains mp t key slot t') ∨
    ∃ e t', rehashAndSet mp mem (depth + 2) key t = .error e t' ∧ Refused mp mem t e := by
  have started : rehashAndSet mp mem (depth + 2) key t =
      (resizeWith mp (rehashAndSet mp mem (depth + 1)) mem (t.rehashSizes key).1 (t.rehashSizes key).2 >>= fun _ =>
        setWith mp (rehashAndSet mp mem (depth + 1)) key) t := rfl
  have resized : (∃ t₁, resizeWith mp (rehashAndSet mp mem (depth + 1)) mem (t.rehashSizes key).1 (t.rehashSizes key).2 t =
      .ok () t₁ ∧ WellFormed mp t₁ ∧ ∀ k, t₁.value mp k = t.value mp k) ∨
      ∃ e t₁, resizeWith mp (rehashAndSet mp mem (depth + 1)) mem (t.rehashSizes key).1 (t.rehashSizes key).2 t =
        .error e t₁ ∧ Refused mp mem t e := by
    by_cases countable : t.Countable
    · exact intact.resize_counted countable _ key
    · have large : maxASize < t.sizearray := by
        by_contra small
        exact countable fun i beyond inside => by omega
      exact intact.resize_large large outside intact.crowded
  obtain ⟨t₁, ran₁, wf, value⟩ | ⟨e, t₁, ran₁, refused⟩ := resized
  · obtain ⟨slot, t', ran', provided⟩ | ⟨e, t', ran', -, lastfree, flags, fails⟩ := wf.setWith_inserts held.isKey mem depth
    · have ran : rehashAndSet mp mem (depth + 2) key t = .ok slot t' := by rw [started, bind_of_ok ran₁, ran']
      have placed := rehashAndSet_grows (Nat.zero_le _) mem (depth + 2) key held t intact.chained
      rw [ran] at placed
      refine .inl ⟨slot, t', ran, ⟨placed.1, fun {i} used => ?_⟩, ?_, fun k live => ?_⟩
      · exact provided.wf.apart fun free => used (provided.wf.unused free)
      · cases provided.slotFor with
        | array inside => exact .array inside
        | node used equal =>
          refine .node used equal fun inside => provided.wf.apart used ?_
          rwa [InArray, arrayindex_congr equal]
      · rw [provided.value k, value k]
    · refine .inr ⟨e, t', by rw [started, bind_of_ok ran₁, ran'], (wf.refused ⟨lastfree, flags, fails⟩).mono fun k some => ?_⟩
      rwa [← value k]
  · exact .inr ⟨e, t₁, by rw [started, bind_of_error ran₁], refused⟩

/-! ## Insertions -/

theorem Intact.setFields (intact : Intact mp t) {lastfree : Int} (low : lastfree ≤ t.lastfree) (flags : UInt8) :
    Intact mp { t with lastfree, flags } :=
  ⟨(intact.chained.setLastfree low).setFlags flags, intact.apart⟩

/-- The set functions: search, and insert what was not found. -/
theorem Intact.get_or_newkey_gains (intact : Intact mp t) (held : Held key) :
    (∃ slot t', (if t.getSlot mp key ≠ .nilobject then .ok (t.getSlot mp key) t
        else newkeyWith mp (rehashAndSet mp mem (depth + 2)) key t) = (.ok slot t' : EStateM.Result TableError (Table N) Slot) ∧
      Gains mp t key slot t') ∨
    ∃ e t', (if t.getSlot mp key ≠ .nilobject then .ok (t.getSlot mp key) t
        else newkeyWith mp (rehashAndSet mp mem (depth + 2)) key t) = (.error e t' : EStateM.Result TableError (Table N) Slot) ∧
      Refused mp mem t e := by
  by_cases missing : t.getSlot mp key = .nilobject
  · have outside : ¬ t.InArray key := by
      intro inside
      rw [getSlot_eq t held.isKey.ne_nil, if_pos inside] at missing
      cases missing
    rw [if_neg (by simpa using missing)]
    obtain ⟨slot, t', ran, gains⟩ | ⟨lastfree, low, grows⟩ := intact.newkeyWith_cases (intact.chained.missing held missing) outside
    · exact .inl ⟨slot, t', ran _, gains⟩
    · rw [grows]
      obtain ⟨slot, t', ran, gains⟩ | ⟨e, t', ran, refused⟩ :=
        @Intact.rehashAndSet_gains _ _ depth mp mem { t with lastfree } key (intact.setFields low t.flags) held outside
      · refine .inl ⟨slot, t', ran, gains.intact, gains.slotOf, fun k live => ?_⟩
        rw [gains.value k live]
        exact setFields_value t lastfree t.flags k
      · refine .inr ⟨e, t', ran, refused.mono fun k some => ?_⟩
        rwa [show ({ t with lastfree } : Table N).value mp k = t.value mp k from setFields_value t lastfree t.flags k] at some
  · rw [if_pos missing]
    exact .inl ⟨_, t, rfl, intact, slotOf_getSlot held.isKey.ne_nil missing, fun _ _ => rfl⟩

/-- `t'` is `t` with the value stored under the key. -/
structure Deposits (mp : MainPosition N) (t : Table N) (key v : TValue N) (t' : Table N) : Prop where
  intact : Intact mp t'
  value : ∀ k : TValue N, k.isDeadkey = false → t'.value mp k = if rawequalObj k key then v else t.value mp k

theorem Gains.deposits (held : Held key) (gains : Gains mp t key slot t') (v : TValue N) : Deposits mp t key v (t'.write slot v) := by
  refine ⟨gains.intact.write held gains.slotOf v, fun k live => ?_⟩
  rw [gains.intact.write_value held gains.slotOf v live, gains.value k live]

/-- A store through `gafqH_setnum`, or an error of the allocations. -/
theorem Intact.storeAt_setnum (intact : Intact mp t) {j : Int} (inInt : InInt j) (v : TValue N) :
    (∃ t', storeAt (setnumWith mp (rehashAndSet mp mem (depth + 2)) j) v t = .ok () t' ∧
      Deposits mp t (.number (castNum j)) v t') ∨
    ∃ e t', storeAt (setnumWith mp (rehashAndSet mp mem (depth + 2)) j) v t = .error e t' ∧ Refused mp mem t e := by
  have held : Held (.number (castNum j) : TValue N) := ⟨isKey_castNum inInt, rfl⟩
  have inserted := @Intact.get_or_newkey_gains _ _ depth mp mem t _ intact held
  rw [← getnum_castNum t inInt] at inserted
  obtain ⟨slot, t', ran, gains⟩ | ⟨e, t', ran, refused⟩ := inserted
  · have set : setnumWith mp (rehashAndSet mp mem (depth + 2)) j t = .ok slot t' := ran
    exact .inl ⟨_, storeAt_of_ok set, gains.deposits held v⟩
  · have failed : setnumWith mp (rehashAndSet mp mem (depth + 2)) j t = .error e t' := ran
    exact .inr ⟨e, t', bind_of_error failed, refused⟩

/-- `gafqH_set` on a key that is not dead. -/
theorem Intact.storeAt_set (intact : Intact mp t) (live : key.isDeadkey = false) (v : TValue N) :
    (∃ t', storeAt (setWith mp (rehashAndSet mp mem (depth + 2)) key) v t = .ok () t' ∧ Deposits mp t key v t') ∨
    ∃ e t', storeAt (setWith mp (rehashAndSet mp mem (depth + 2)) key) v t = .error e t' := by
  by_cases isKey : IsKey key
  · have held : Held key := ⟨isKey, live⟩
    have cleared := intact.setFields (le_refl t.lastfree) 0
    have inserted := @Intact.get_or_newkey_gains _ _ depth mp mem _ _ cleared held
    rw [setFlags_getSlot] at inserted
    obtain ⟨slot, t', ran, gains⟩ | ⟨e, t', ran, -⟩ := inserted
    · have set : setWith mp (rehashAndSet mp mem (depth + 2)) key t = .ok slot t' := by rw [setWith_eq _ isKey, ran]
      refine .inl ⟨_, storeAt_of_ok set, (gains.deposits held v).intact, fun k liveK => ?_⟩
      rw [(gains.deposits held v).value k liveK, setFlags_value]
    · have failed : setWith mp (rehashAndSet mp mem (depth + 2)) key t = .error e t' := by rw [setWith_eq _ isKey, ran]
      exact .inr ⟨e, t', bind_of_error failed⟩
  · right
    by_cases isNil : key = .nil
    · subst isNil
      exact ⟨_, _, rfl⟩
    · have missing : t.getSlot mp key = .nilobject := by
        by_contra found
        cases slot : t.getSlot mp key with
        | nilobject => exact found slot
        | array a =>
          have slotOf := slotOf_getSlot isNil found
          rw [slot] at slotOf
          cases slotOf with
          | array inside =>
            have equal := rawequal_of_arrayindex inside.1 rfl
            exact isKey ⟨isNil, rawequalObj_trans (rawequalObj_symm equal) equal⟩
        | node i =>
          have slotOf := slotOf_getSlot isNil found
          rw [slot] at slotOf
          cases slotOf with
          | node used equal => exact isKey ((intact.chained.isKey used).of_rawequal (rawequalObj_symm equal))
      have notNaN : key.isNaN = true := by
        by_contra number
        exact isKey (isKey_of_not_isNaN isNil (by simpa using number))
      have failed : setWith mp (rehashAndSet mp mem (depth + 2)) key t = .error .indexNaN { t with flags := 0 } := by
        simp [setWith, missing, isNil, notNaN]
      exact ⟨_, _, bind_of_error failed⟩

end Table

/-! ## Every table is intact -/

/-- The tables that a program can come by while its allocations succeed: a new table, after stores, after
`gafqH_resizearray` to a larger array part, and after the collector has cleared some entries and marked keys dead. -/
inductive Built (mp : MainPosition N) : Table N → Prop
  | new {mem : Memory} {narray nhash : Nat} {t : Table N} (inInt : InInt (narray : Int))
      (created : Table.new mem narray nhash = .ok () t) : Built mp t
  | store {t t' : Table N} (mem : Memory) (depth : Nat) {op : TableOp N} (built : Built mp t) (live : op.key.isDeadkey = false)
      (ran : Table.storeAt (op.insertionAt mp mem (depth + 2)) op.stored t = .ok () t') : Built mp t'
  | resizearray {t t' : Table N} (mem : Memory) {nasize : Nat} (built : Built mp t) (inInt : InInt (nasize : Int))
      (grows : t.sizearray ≤ nasize) (ran : Table.resizearray mp mem 0 nasize t = .ok () t') : Built mp t'
  | flags {t : Table N} (flags : UInt8) (built : Built mp t) : Built mp { t with flags }
  | clear {t : Table N} (slot : Slot) (built : Built mp t) : Built mp (t.write slot .nil)
  | removeentry {t : Table N} (i : Nat) (built : Built mp t) (empty : (t.node i).val = .nil) : Built mp (t.removeentry i)

namespace Table

variable {mp : MainPosition N} {mem : Memory} {t t' : Table N} {depth : Nat}

theorem new_intact {narray nhash : Nat} (inInt : InInt (narray : Int)) (created : Table.new mem narray nhash = .ok () t) :
    Intact mp t := by
  refine ⟨new_chained mem nhash inInt created, fun {i} used => ?_⟩
  have made : (setarrayvector mem.array narray >>= fun _ => setnodevector mem.nodes nhash) (empty : Table N) = .ok () t := created
  cases ran : setarrayvector mem.array narray (empty : Table N) with
  | error e t₁ =>
    rw [bind_of_error ran] at made
    cases made
  | ok a t₁ =>
    rw [bind_of_ok ran] at made
    obtain ⟨t₂, ran₂, -, isEmpty, -⟩ | ⟨e, ran₂, -⟩ := setnodevector_spec mem.nodes nhash t₁
    · rw [ran₂] at made
      obtain ⟨-, rfl⟩ := EStateM.Result.ok.inj made
      rw [isEmpty.node] at used
      exact absurd rfl used
    · rw [ran₂] at made
      cases made

theorem Intact.insertionAt (intact : Intact mp t) {op : TableOp N} (live : op.key.isDeadkey = false)
    (ran : storeAt (op.insertionAt mp mem (depth + 2)) op.stored t = .ok () t') : Deposits mp t op.key op.stored t' := by
  cases op with
  | set key v =>
    obtain ⟨t₁, ran₁, stored⟩ | ⟨e, t₁, ran₁⟩ := @Intact.storeAt_set _ _ depth mp mem t key intact live v
    · obtain ⟨-, rfl⟩ := EStateM.Result.ok.inj (ran₁.symm.trans ran)
      exact stored
    · cases ran₁.symm.trans ran
  | setnum k v =>
    obtain ⟨t₁, ran₁, stored⟩ | ⟨e, t₁, ran₁, -⟩ := @Intact.storeAt_setnum _ _ depth mp mem t intact _ k.2 v
    · obtain ⟨-, rfl⟩ := EStateM.Result.ok.inj (ran₁.symm.trans ran)
      exact stored
    · cases ran₁.symm.trans ran
  | setstr s v =>
    have held : Held (.string s : TValue N) := ⟨isKey_string s, rfl⟩
    obtain ⟨slot, t₁, ran₁, gains⟩ | ⟨e, t₁, ran₁, -⟩ := @Intact.get_or_newkey_gains _ _ depth mp mem t _ intact held
    · have set : setstrWith mp (rehashAndSet mp mem (depth + 2)) s t = .ok slot t₁ := ran₁
      obtain ⟨-, rfl⟩ := EStateM.Result.ok.inj ((storeAt_of_ok set).symm.trans ran)
      exact gains.deposits held v
    · have failed : setstrWith mp (rehashAndSet mp mem (depth + 2)) s t = .error e t₁ := ran₁
      have stuck : storeAt (setstrWith mp (rehashAndSet mp mem (depth + 2)) s) v t = .error e t₁ := bind_of_error failed
      cases stuck.symm.trans ran

theorem Intact.clear (intact : Intact mp t) (slot : Slot) : Intact mp (t.write slot .nil) := by
  refine ⟨intact.chained.clear slot, fun {i} used inside => ?_⟩
  have inside' : t.InArray (t.keys i) := by simpa [InArray] using inside
  refine intact.apart (fun empty => used ?_) inside'
  cases slot with
  | array | nilobject => exact empty
  | node j =>
    by_cases here : i = j
    · simp [Table.write, here]
    · simpa [Table.write, Function.update_of_ne here] using empty

theorem Intact.removeentry (intact : Intact mp t) {i : Nat} (empty : (t.node i).val = .nil) : Intact mp (t.removeentry i) := by
  refine ⟨intact.chained.removeentry empty, fun {j} used inside => ?_⟩
  rw [removeentry_val] at used
  have other : j ≠ i := by
    rintro rfl
    exact used empty
  rw [removeentry_keys, Function.update_of_ne other] at inside
  exact intact.apart used inside

theorem Intact.resizearray (intact : Intact mp t) {nasize : Nat} (inInt : InInt (nasize : Int)) (grows : t.sizearray ≤ nasize)
    (ran : resizearray mp mem 0 nasize t = .ok () t') : Intact mp t' := by
  have chained := resizeWith_chained (rehashAndSet_grows (Nat.zero_le _) mem 0) mem (if t.isDummy then 0 else t.sizenode) inInt t intact.chained
  obtain ⟨t₁, ran₁, arranged⟩ | ⟨e, t₁, ran₁, -⟩ := intact.chained.resizearray_cases mem grows
  · obtain ⟨-, rfl⟩ := EStateM.Result.ok.inj (ran₁.symm.trans ran)
    have same : resizeWith mp (rehashAndSet mp mem 0) mem nasize (if t.isDummy then 0 else t.sizenode) t = .ok () t₁ := ran₁
    rw [same] at chained
    exact ⟨chained, fun {i} used => arranged.apart fun free => used (arranged.unused free)⟩
  · cases ran₁.symm.trans ran

end Table

theorem Built.intact {mp : MainPosition N} {t : Table N} (built : Built mp t) : Table.Intact mp t := by
  induction built with
  | new inInt created => exact Table.new_intact inInt created
  | store mem depth _ live ran intact => exact (intact.insertionAt live ran).intact
  | resizearray mem _ inInt grows ran intact => exact intact.resizearray inInt grows ran
  | flags flags _ intact => exact intact.setFields (le_refl _) flags
  | clear slot _ intact => exact intact.clear slot
  | removeentry i _ empty intact => exact intact.removeentry empty

end Gafq
