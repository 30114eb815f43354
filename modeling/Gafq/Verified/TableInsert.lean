import Gafq.Verified.TableSearch

/-! # Inserting a new key

`newkey` while the node vector has a free position.  The three ways in which it finds a place keep
the invariant and the entries: the main position is unused, the colliding node moves away, or the
new key joins the chain.
-/

namespace Gafq

open Base

variable {N : Type} [GafqNumber N]

namespace Table

variable {bound : Nat} {mp : MainPosition N} {t : Table N} {key : TValue N}

/-! ## Free positions -/

/-- The number of positions that `getfreepos` can still give out. -/
def room (t : Table N) : Nat :=
  if t.isDummy then 0 else ((Finset.range t.sizenode).filter fun i => (t.keys i).isNil).card

omit [GafqNumber N] in
theorem getfreeposLoop_spec (t : Table N) (f : Nat) :
    match t.getfreeposLoop f with
    | (lastfree, none) => lastfree = -1 ∧ ∀ i < f, t.keys i ≠ .nil
    | (lastfree, some n) => lastfree = n ∧ n < f ∧ t.keys n = .nil ∧ ∀ i, n < i → i < f → t.keys i ≠ .nil := by
  induction f with
  | zero => simp [getfreeposLoop]
  | succ f inductionHypothesis =>
    unfold getfreeposLoop
    by_cases free : (t.node f).key.isNil = true
    · simp only [free, if_true]
      exact ⟨trivial, by omega, by simpa [keys] using free, fun i above below => by omega⟩
    · simp only [free, if_false, Bool.false_eq_true]
      have taken : t.keys f ≠ .nil := by simpa [keys] using free
      split <;> rename_i found <;> rw [found] at inductionHypothesis
      · obtain ⟨last, all⟩ := inductionHypothesis
        refine ⟨last, fun i below => ?_⟩
        by_cases here : i = f
        · rwa [here]
        · exact all i (by omega)
      · obtain ⟨last, below, free, all⟩ := inductionHypothesis
        refine ⟨last, by omega, free, fun i above below' => ?_⟩
        by_cases here : i = f
        · rwa [here]
        · exact all i above (by omega)

/-- With room left, `getfreepos` finds the last free position. -/
theorem Arranged.getfreepos_some (wf : Arranged bound mp t) (room : 0 < t.room) :
    ∃ n : Nat, t.getfreepos = ((n : Int), some n) ∧ n < t.sizenode ∧ t.keys n = .nil ∧
      ∀ i, n < i → i < t.sizenode → t.keys i ≠ .nil := by
  unfold Table.room at room
  split at room
  · omega
  · rename_i notDummy
    obtain ⟨i, member⟩ := Finset.card_pos.1 room
    simp only [Finset.mem_filter, Finset.mem_range, TValue.isNil_iff] at member
    have used : ∀ {i : Nat}, t.lastfree ≤ i → i < t.sizenode → t.keys i ≠ .nil :=
      wf.used (by simpa using notDummy)
    have below : (i : Int) < t.lastfree := by
      by_contra above
      exact used (by omega) member.1 member.2
    have spec := t.getfreeposLoop_spec t.lastfree.toNat
    have bound := wf.lastfree_le
    unfold getfreepos
    rw [if_pos (by omega)]
    cases found : t.getfreeposLoop t.lastfree.toNat with
    | mk lastfree free =>
      rw [found] at spec
      cases free with
      | none => exact absurd member.2 (spec.2 i (by omega))
      | some n =>
        obtain ⟨rfl, small, isFree, all⟩ := spec
        refine ⟨n, rfl, by omega, isFree, fun j above inside => ?_⟩
        by_cases low : (j : Int) < t.lastfree
        · exact all j above (by omega)
        · exact used (by omega) inside

theorem getfreepos_none (full : t.room = 0) (wf : Arranged bound mp t) : ∃ lastfree : Int,
    t.getfreepos = (lastfree, none) ∧ lastfree ≤ t.lastfree ∧ lastfree ≤ 0 := by
  unfold getfreepos
  split
  · rename_i positive
    have spec := t.getfreeposLoop_spec t.lastfree.toNat
    have bound := wf.lastfree_le
    cases found : t.getfreeposLoop t.lastfree.toNat with
    | mk lastfree free =>
      rw [found] at spec
      cases free with
      | none =>
        obtain ⟨rfl, -⟩ := spec
        exact ⟨-1, rfl, by omega, by omega⟩
      | some n =>
        obtain ⟨-, small, isFree, -⟩ := spec
        have notDummy : t.isDummy = false := by
          cases dummy : t.isDummy with
          | false => rfl
          | true =>
            have := (wf.dummy dummy).2.1
            omega
        rw [room, notDummy] at full
        simp only [Bool.false_eq_true, if_false, Finset.card_eq_zero, Finset.filter_eq_empty_iff,
          Finset.mem_range, TValue.isNil_iff] at full
        exact absurd isFree (full (by omega))
  · exact ⟨_, rfl, by omega, by omega⟩

omit [GafqNumber N] in
/-- Giving a key to one more position costs at most one free position. -/
theorem room_le {t' : Table N} {n : Nat} (dummy : t'.isDummy = t.isDummy) (size : t'.lsizenode = t.lsizenode)
    (others : ∀ i, i ≠ n → t.keys i = .nil → t'.keys i = .nil) : t.room ≤ t'.room + 1 := by
  unfold room sizenode
  rw [dummy, size]
  split
  · omega
  · have sub : ((Finset.range (2 ^ t.lsizenode)).filter fun i => (t.keys i).isNil).erase n ⊆
        (Finset.range (2 ^ t.lsizenode)).filter fun i => (t'.keys i).isNil := by
      intro i member
      simp only [Finset.mem_erase, Finset.mem_filter, TValue.isNil_iff] at member ⊢
      exact ⟨member.2.1, others i member.1 member.2.2⟩
    have := Finset.card_le_card sub
    have := @Finset.pred_card_le_card_erase Nat
      ((Finset.range (2 ^ t.lsizenode)).filter fun i => (t.keys i).isNil) n _
    omega

/-! ## What an insertion achieves -/

/-- The slot of a key. -/
inductive SlotFor (t : Table N) (key : TValue N) : Slot → Prop
  | array (inArray : t.InArray key) : SlotFor t key (.array (arrayindex key - 1).toNat)
  | node {i : Nat} (used : t.keys i ≠ .nil) (equal : rawequalObj (t.keys i) key = true) :
      SlotFor t key (.node i)

/-- `t'` is `t` with a place for `key`. -/
structure Places (bound : Nat) (mp : MainPosition N) (t : Table N) (key : TValue N) (slot : Slot) (t' : Table N) : Prop where
  wf : Arranged bound mp t'
  array : t'.array = t.array
  sizearray : t'.sizearray = t.sizearray
  lsizenode : t'.lsizenode = t.lsizenode
  isDummy : t'.isDummy = t.isDummy
  entries : ∀ key v, t'.Entry key v ↔ t.Entry key v
  slotFor : SlotFor t' key slot
  room : t.room ≤ t'.room + if t.InArray key then 0 else 1

/-- A key that no node holds and that the array part does not cover. -/
structure Fresh (t : Table N) (key : TValue N) : Prop where
  isKey : IsKey key
  absent : ∀ i, t.keys i ≠ .nil → rawequalObj (t.keys i) key = false
  outside : ¬ t.InArray key

/-- The key is new for the library's purposes too. -/
theorem Fresh.hashing (fresh : Fresh t key) (mp : MainPosition N) : (t.hashing mp).Fresh t.keys key :=
  ⟨fresh.isKey.ne_nil, fresh.absent⟩

/-- A new key at position `i`, with all links and all other keys arranged by `t'`. -/
theorem Arranged.places_of (wf : Arranged bound mp t) (fresh : Fresh t key) (notDummy : t.isDummy = false)
    {t' : Table N} {i n : Nat}
    (array : t'.array = t.array) (sizearray : t'.sizearray = t.sizearray) (lsizenode : t'.lsizenode = t.lsizenode)
    (isDummy : t'.isDummy = t.isDummy) (lastfree : t'.lastfree ≤ t.lastfree)
    (scatter : Scatter (t.hashing mp) t'.keys t'.next)
    (placed : t'.keys i = key)
    (origin : ∀ j, j = i ∨ ∃ j', t'.node j = { t.node j' with next := t'.next j })
    (empty : (t'.node i).val = .nil)
    (kept : ∀ j, (t.node j).val ≠ .nil → ∃ j', t'.keys j' = t.keys j ∧ (t'.node j').val = (t.node j).val)
    (others : ∀ j, j ≠ n → t.keys j = .nil → t'.keys j = .nil)
    (used : ∀ j : Nat, t'.lastfree ≤ j → j < t.sizenode → t'.keys j ≠ .nil) :
    Places bound mp t key (.node i) t' := by
  have size : t'.sizenode = t.sizenode := by rw [sizenode, sizenode, lsizenode]
  have hashing : t'.hashing mp = t.hashing mp := by
    simp only [Table.hashing, size, lsizenode]
  have inArray : ∀ k, t'.InArray k ↔ t.InArray k := by
    intro k
    rw [InArray, InArray, sizearray]
  have originKey : ∀ {j}, j ≠ i → ∃ j', t'.keys j = t.keys j' ∧ (t'.node j).val = (t.node j').val := by
    intro j other
    obtain ⟨j', same⟩ := (origin j).resolve_left other
    exact ⟨j', by rw [keys, same]; rfl, by rw [same]⟩
  refine ⟨?_, array, sizearray, lsizenode, isDummy, ?_, ?_, ?_⟩
  · constructor
    case scatter => rw [hashing]; exact scatter
    case unused =>
      intro j free
      by_cases here : j = i
      · rw [here]
        exact empty
      · obtain ⟨j', sameKey, sameVal⟩ := originKey here
        rw [sameVal]
        exact wf.unused (sameKey ▸ free)
    case isKey =>
      intro j usedJ
      by_cases here : j = i
      · rw [here, placed]
        exact fresh.isKey
      · obtain ⟨j', sameKey, -⟩ := originKey here
        rw [sameKey] at usedJ ⊢
        exact wf.isKey usedJ
    case apart =>
      intro j usedJ
      rw [inArray]
      by_cases here : j = i
      · rw [here, placed]
        exact fresh.outside
      · obtain ⟨j', sameKey, -⟩ := originKey here
        rw [sameKey] at usedJ ⊢
        exact wf.apart usedJ
    case lastfree_le =>
      rw [size]
      exact lastfree.trans wf.lastfree_le
    case used =>
      intro _ j above inside
      exact used j above (size ▸ inside)
    case dummy =>
      intro dummy
      rw [isDummy, notDummy] at dummy
      cases dummy
    case sizearray_le =>
      rw [sizearray]
      exact wf.sizearray_le
  · intro other v
    constructor
    · rintro ⟨j, rfl, rfl, usedJ, some⟩
      have here : j ≠ i := by
        rintro rfl
        exact some empty
      obtain ⟨j', sameKey, sameVal⟩ := originKey here
      exact ⟨j', sameKey.symm, sameVal.symm, usedJ, some⟩
    · rintro ⟨j, rfl, rfl, usedJ, some⟩
      obtain ⟨j', sameKey, sameVal⟩ := kept j some
      exact ⟨j', sameKey, sameVal, usedJ, some⟩
  · refine .node ?_ ?_ <;> rw [placed]
    · exact fresh.isKey.ne_nil
    · exact fresh.isKey.self
  · rw [if_neg fresh.outside]
    exact @room_le _ _ _ n isDummy lsizenode others

/-! ## The nodes after an insertion -/

section Nodes

omit [GafqNumber N]

variable {m n prev : Nat} {f : Int}

theorem setKey_node (t : Table N) (m : Nat) (key : TValue N) (j : Nat) :
    (t.setKey m key).node j = if j = m then { t.node j with key := key } else t.node j := by
  simp only [setKey, Function.update_apply]
  split <;> simp [*]

theorem setKey_keys (t : Table N) (m : Nat) (key : TValue N) :
    (t.setKey m key).keys = Function.update t.keys m key := by
  funext j
  rw [keys, setKey_node, Function.update_apply]
  split <;> rfl

theorem setKey_next (t : Table N) (m : Nat) (key : TValue N) : (t.setKey m key).next = t.next := by
  funext j
  rw [next, setKey_node]
  split <;> rfl

/-- The key has joined the chain behind `m`. -/
theorem linked_node (distinct : m ≠ n) (j : Nat) : (({ t with lastfree := f }.chainNode m n).setKey n key).node j =
    if j = n then ⟨key, (t.node n).val, t.next m⟩
    else if j = m then { t.node j with next := some n } else t.node j := by
  simp only [setKey, chainNode, Function.update_apply, distinct, distinct.symm, if_true, if_false, next]
  split
  · rfl
  · split <;> simp [*]

theorem linked_keys (distinct : m ≠ n) :
    (({ t with lastfree := f }.chainNode m n).setKey n key).keys = Function.update t.keys n key := by
  funext j
  rw [keys, linked_node distinct, Function.update_apply]
  split
  · rfl
  · split <;> rfl

theorem linked_next (distinct : m ≠ n) :
    (({ t with lastfree := f }.chainNode m n).setKey n key).next = insertAfter t.next m n := by
  funext j
  rw [next, linked_node distinct]
  by_cases new : j = n
  · rw [if_pos new, new, insertAfter_new distinct]
  · by_cases here : j = m
    · rw [if_neg new, if_pos here, here, insertAfter_self]
    · rw [if_neg new, if_neg here, insertAfter_of_ne here new]
      rfl

/-- The key has taken the place of the node at `m`, which is now at `n`. -/
theorem moved_node (distinct : m ≠ n) (notSelf : prev ≠ m) (j : Nat) :
    (({ t with lastfree := f }.moveNode prev m n).setKey m key).node j =
      if j = m then ⟨key, .nil, none⟩
      else if j = n then t.node m
      else if j = prev then { t.node j with next := some n } else t.node j := by
  simp only [setKey, moveNode, Function.update_apply, distinct, notSelf.symm, if_true, if_false]
  split
  · rfl
  · split
    · rfl
    · split <;> simp [*]

theorem moved_keys (distinct : m ≠ n) (notSelf : prev ≠ m) :
    (({ t with lastfree := f }.moveNode prev m n).setKey m key).keys =
      Function.update (Function.update t.keys n (t.keys m)) m key := by
  funext j
  rw [keys, moved_node distinct notSelf, Function.update_apply, Function.update_apply]
  split
  · rfl
  · split
    · rfl
    · split <;> rfl

theorem moved_next (distinct : m ≠ n) (notSelf : prev ≠ m) (notFree : prev ≠ n) :
    (({ t with lastfree := f }.moveNode prev m n).setKey m key).next = replaceLink t.next prev m n := by
  funext j
  rw [next, moved_node distinct notSelf, replaceLink, Function.update_apply, Function.update_apply,
    Function.update_apply]
  by_cases here : j = m
  · rw [if_pos here, if_pos here]
  · rw [if_neg here, if_neg here]
    by_cases new : j = n
    · have other : j ≠ prev := fun same => notFree (same.symm.trans new)
      rw [if_pos new, if_neg other, if_pos new]
      rfl
    · rw [if_neg new, if_neg new]
      split <;> rfl

end Nodes

/-! ## The three places -/

/-- The main position is not in use: an entry whose value is `nil` may be overwritten, even when it
sits on another chain. -/
theorem Arranged.setKey_places (wf : Arranged bound mp t) (fresh : Fresh t key) (notDummy : t.isDummy = false)
    (unused : (t.node (mp.pos t.lsizenode key)).val = .nil) :
    Places bound mp t key (.node (mp.pos t.lsizenode key)) (t.setKey (mp.pos t.lsizenode key) key) := by
  have nodeAt := t.setKey_node (mp.pos t.lsizenode key) key
  have keysEq := t.setKey_keys (mp.pos t.lsizenode key) key
  have nextEq := t.setKey_next (mp.pos t.lsizenode key) key
  refine @places_of _ _ bound mp t key wf fresh notDummy _ _ (mp.pos t.lsizenode key) rfl rfl rfl rfl (le_refl _)
    ?_ ?_ ?_ ?_ ?_ ?_ ?_
  · rw [keysEq, nextEq]
    exact wf.scatter.overwrite (fresh.hashing mp)
  · rw [keysEq, Function.update_self]
  · intro j
    by_cases here : j = mp.pos t.lsizenode key
    · exact .inl here
    · refine .inr ⟨j, ?_⟩
      rw [nextEq, nodeAt, if_neg here]
      rfl
  · rw [nodeAt, if_pos rfl]
    exact unused
  · intro j some
    have here : j ≠ mp.pos t.lsizenode key := by
      rintro rfl
      exact some unused
    exact ⟨j, by rw [keysEq, Function.update_of_ne here], by rw [nodeAt, if_neg here]⟩
  · intro j other free
    rw [keysEq, Function.update_of_ne other]
    exact free
  · intro j above inside
    rw [keysEq, Function.update_apply]
    split
    · exact fresh.isKey.ne_nil
    · exact wf.used notDummy above inside

/-- The free position `n` that `getfreepos` found, and what it knows about the others. -/
structure FreeAt (t : Table N) (n : Nat) : Prop where
  free : t.keys n = .nil
  small : n < t.sizenode
  below : (n : Int) ≤ t.lastfree
  above : ∀ i, n < i → i < t.sizenode → t.keys i ≠ .nil

/-- The colliding node is at home: the new key joins its chain. -/
theorem Arranged.chainNode_places (wf : Arranged bound mp t) (fresh : Fresh t key) (notDummy : t.isDummy = false)
    {n : Nat} (freeAt : FreeAt t n) (taken : t.keys (mp.pos t.lsizenode key) ≠ .nil)
    (atHome : mp.pos t.lsizenode (t.keys (mp.pos t.lsizenode key)) = mp.pos t.lsizenode key) :
    Places bound mp t key (.node n)
      (({ t with lastfree := (n : Int) }.chainNode (mp.pos t.lsizenode key) n).setKey n key) := by
  have distinct : mp.pos t.lsizenode key ≠ n := fun same => taken (same ▸ freeAt.free)
  have nodeAt := @linked_node _ t key (mp.pos t.lsizenode key) n n distinct
  have keysEq := @linked_keys _ t key (mp.pos t.lsizenode key) n n distinct
  have nextEq := @linked_next _ t key (mp.pos t.lsizenode key) n n distinct
  generalize (({ t with lastfree := (n : Int) }.chainNode (mp.pos t.lsizenode key) n).setKey n key) = t',
    placed : (({ t with lastfree := (n : Int) }.chainNode (mp.pos t.lsizenode key) n).setKey n key) = t' at nodeAt keysEq nextEq ⊢
  refine @places_of _ _ bound mp t key wf fresh notDummy _ _ n ?_ ?_ ?_ ?_ ?_ ?_ ?_ ?_ ?_ ?_ ?_ ?_
  · rw [← placed]; rfl
  · rw [← placed]; rfl
  · rw [← placed]; rfl
  · rw [← placed]; rfl
  · rw [← placed]; exact freeAt.below
  · rw [keysEq, nextEq]
    exact wf.scatter.link (fresh.hashing mp) freeAt.free freeAt.small taken atHome
  · rw [keysEq, Function.update_self]
  · intro j
    by_cases new : j = n
    · exact .inl new
    · refine .inr ⟨j, ?_⟩
      rw [nodeAt, if_neg new, next, nodeAt, if_neg new]
      split <;> rfl
  · rw [nodeAt, if_pos rfl]
    exact wf.unused freeAt.free
  · intro j some
    have new : j ≠ n := by
      rintro rfl
      exact some (wf.unused freeAt.free)
    refine ⟨j, by rw [keysEq, Function.update_of_ne new], ?_⟩
    rw [nodeAt, if_neg new]
    split <;> rfl
  · intro j other free
    rw [keysEq, Function.update_of_ne other]
    exact free
  · intro j above inside
    have last : t'.lastfree = n := by rw [← placed]; rfl
    rw [keysEq, Function.update_apply]
    split
    · exact fresh.isKey.ne_nil
    · exact freeAt.above j (by omega) inside

/-- The colliding node is not at home: it moves to the free position. -/
theorem Arranged.moveNode_places (wf : Arranged bound mp t) (fresh : Fresh t key) (notDummy : t.isDummy = false)
    {n prev : Nat} (freeAt : FreeAt t n) (taken : t.keys (mp.pos t.lsizenode key) ≠ .nil)
    (stranger : mp.pos t.lsizenode (t.keys (mp.pos t.lsizenode key)) ≠ mp.pos t.lsizenode key)
    (step : t.next prev = some (mp.pos t.lsizenode key)) :
    Places bound mp t key (.node (mp.pos t.lsizenode key))
      (({ t with lastfree := (n : Int) }.moveNode prev (mp.pos t.lsizenode key) n).setKey
        (mp.pos t.lsizenode key) key) := by
  have distinct : mp.pos t.lsizenode key ≠ n := fun same => taken (same ▸ freeAt.free)
  have notSelf : prev ≠ mp.pos t.lsizenode key := by
    intro same
    rw [same] at step
    exact wf.scatter.linked.next_ne_self step
  have notFree : prev ≠ n := by
    intro same
    rw [same, (wf.scatter.free freeAt.free).no_next] at step
    cases step
  have nodeAt := @moved_node _ t key (mp.pos t.lsizenode key) n prev n distinct notSelf
  have keysEq := @moved_keys _ t key (mp.pos t.lsizenode key) n prev n distinct notSelf
  have nextEq := @moved_next _ t key (mp.pos t.lsizenode key) n prev n distinct notSelf notFree
  generalize (({ t with lastfree := (n : Int) }.moveNode prev (mp.pos t.lsizenode key) n).setKey
      (mp.pos t.lsizenode key) key) = t',
    placed : (({ t with lastfree := (n : Int) }.moveNode prev (mp.pos t.lsizenode key) n).setKey
      (mp.pos t.lsizenode key) key) = t' at nodeAt keysEq nextEq ⊢
  refine @places_of _ _ bound mp t key wf fresh notDummy _ _ n ?_ ?_ ?_ ?_ ?_ ?_ ?_ ?_ ?_ ?_ ?_ ?_
  · rw [← placed]; rfl
  · rw [← placed]; rfl
  · rw [← placed]; rfl
  · rw [← placed]; rfl
  · rw [← placed]; exact freeAt.below
  · rw [keysEq, nextEq]
    exact wf.scatter.move (fresh.hashing mp) freeAt.free freeAt.small taken stranger step
  · rw [keysEq, Function.update_self]
  · intro j
    by_cases here : j = mp.pos t.lsizenode key
    · exact .inl here
    · by_cases new : j = n
      · refine .inr ⟨mp.pos t.lsizenode key, ?_⟩
        rw [next, nodeAt, if_neg here, if_pos new]
      · refine .inr ⟨j, ?_⟩
        rw [nodeAt, if_neg here, if_neg new, next, nodeAt, if_neg here, if_neg new]
        split <;> rfl
  · rw [nodeAt, if_pos rfl]
  · intro j some
    have new : j ≠ n := by
      rintro rfl
      exact some (wf.unused freeAt.free)
    by_cases here : j = mp.pos t.lsizenode key
    · refine ⟨n, ?_, ?_⟩
      · rw [keysEq, Function.update_of_ne distinct.symm, Function.update_self, here]
      · rw [nodeAt, if_neg distinct.symm, if_pos rfl, here]
    · refine ⟨j, by rw [keysEq, Function.update_of_ne here, Function.update_of_ne new], ?_⟩
      rw [nodeAt, if_neg here, if_neg new]
      split <;> rfl
  · intro j other free
    have here : j ≠ mp.pos t.lsizenode key := by
      rintro rfl
      exact taken free
    rw [keysEq, Function.update_of_ne here, Function.update_of_ne other]
    exact free
  · intro j above inside
    have last : t'.lastfree = n := by rw [← placed]; rfl
    rw [keysEq, Function.update_apply, Function.update_apply]
    split
    · exact fresh.isKey.ne_nil
    · split
      · exact taken
      · exact freeAt.above j (by omega) inside

/-! ## `newkey` with room left -/

/-- With room left, `newkey` finds a place without a rehash. -/
theorem Arranged.newkey_places (wf : Arranged bound mp t) (fresh : Fresh t key) (room : 0 < t.room)
    (grow : TValue N → TableM N Slot) :
    ∃ slot t', newkeyWith mp grow key t = .ok slot t' ∧ Places bound mp t key slot t' := by
  have notDummy : t.isDummy = false := by
    cases dummy : t.isDummy with
    | false => rfl
    | true => simp [Table.room, dummy] at room
  unfold newkeyWith
  by_cases unused : (t.node (mp.pos t.lsizenode key)).val = .nil
  · have test : (!(t.node (mp.pos t.lsizenode key)).val.isNil || t.isDummy) = false := by
      simp [unused, notDummy, TValue.isNil]
    simp only [test, Bool.false_eq_true, if_false]
    exact ⟨_, _, rfl, wf.setKey_places fresh notDummy unused⟩
  · have test : (!(t.node (mp.pos t.lsizenode key)).val.isNil || t.isDummy) = true := by
      simp [unused]
    simp only [test, if_true]
    obtain ⟨n, found, small, free, above⟩ := wf.getfreepos_some room
    have taken : t.keys (mp.pos t.lsizenode key) ≠ .nil := fun free => unused (wf.unused free)
    have below : (n : Int) ≤ t.lastfree := by
      by_contra beyond
      exact wf.used notDummy (by omega) small free
    have freeAt : FreeAt t n := ⟨free, small, below, above⟩
    rw [found]
    simp only [insertAt]
    by_cases atHome : mp.pos t.lsizenode (t.keys (mp.pos t.lsizenode key)) = mp.pos t.lsizenode key
    · rw [if_neg (by simpa [keys] using atHome)]
      exact ⟨_, _, rfl, wf.chainNode_places fresh notDummy freeAt taken atHome⟩
    · rw [if_pos (by simpa [keys] using atHome)]
      obtain ⟨prev, walked, step⟩ := wf.scatter.walk_previous taken atHome
      have walked' : walk t.next (fun i => t.next i == some (mp.pos t.lsizenode key)) t.sizenode
          (mp.pos t.lsizenode (t.node (mp.pos t.lsizenode key)).key) = some prev := walked
      have sameNext : ({ t with lastfree := (n : Int) } : Table N).next = t.next := rfl
      have sameSize : ({ t with lastfree := (n : Int) } : Table N).sizenode = t.sizenode := rfl
      simp only [sameNext, sameSize, walked']
      exact ⟨_, _, rfl, wf.moveNode_places fresh notDummy freeAt taken atHome step⟩

end Table

end Gafq
