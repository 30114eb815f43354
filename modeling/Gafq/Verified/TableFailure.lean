import Gafq.Verified.RehashRoom

/-! # Insertions that fail

`resize` changes the table before the last of its allocations.  What a table holds after an
insertion that could not get its memory depends on which allocation failed and on which keys were
on their way from one part of the table to the other.  This holds of every table that a program can come by,
also after other insertions have failed, as long as the rehash counts all entries.
-/

namespace Gafq

open Base

variable {N : Type} [GafqNumber N]

namespace Table

variable {slack : Nat} {mp : MainPosition N} {mem : Memory} {t t' : Table N} {key : TValue N} {e : TableError}
  {grow : TValue N → TableM N Slot}

/-! ## What a grown array part hides -/

omit [GafqNumber N] in
theorem read_search_congr (node : t'.node = t.node) (lsizenode : t'.lsizenode = t.lsizenode) (test : TValue N → Bool)
    (i : Nat) : t'.read (t'.search test i) = t.read (t.search test i) := by
  have next : t'.next = t.next := by
    unfold Table.next
    rw [node]
  unfold search sizenode
  rw [next, node, lsizenode]
  split
  · simp [read, node]
  · rfl

/-- A key that belongs to the added slice is looked up there; the node that holds it is not. -/
theorem grown_value (t : Table N) (n : Nat) (k : TValue N) :
    (t.grown n).value mp k =
      if t.sizearray < arrayindex k ∧ arrayindex k ≤ n then .nil else t.value mp k := by
  by_cases isNil : k = .nil
  · subst isNil
    rw [if_neg (by simp only [arrayindex]; omega)]
    rfl
  by_cases grows : t.sizearray < n
  · have array : (t.grown n).array = fun i => if i < t.sizearray then t.array i else .nil := by simp [grown, grows]
    have size : (t.grown n).sizearray = n := by simp [grown, grows]
    by_cases inside : (t.grown n).InArray k
    · have range : 1 ≤ arrayindex k ∧ arrayindex k ≤ n := size ▸ inside
      rw [value_of_inArray inside, array]
      by_cases added : t.sizearray < arrayindex k
      · rw [if_pos ⟨added, range.2⟩]
        exact if_neg (by omega)
      · have before : t.InArray k := ⟨range.1, by omega⟩
        rw [if_neg fun both => added both.1, value_of_inArray before]
        exact if_pos (by omega)
    · have range : ¬ (1 ≤ arrayindex k ∧ arrayindex k ≤ n) := size ▸ inside
      have before : ¬ t.InArray k := fun both => range ⟨both.1, by have := both.2; omega⟩
      rw [if_neg (by omega), value, value, getSlot_eq _ isNil, getSlot_eq _ isNil, if_neg inside, if_neg before]
      have nodes : (t.grown n).node = t.node := by simp [grown, grows]
      have lsizenode : (t.grown n).lsizenode = t.lsizenode := by simp [grown, grows]
      rw [read_search_congr nodes lsizenode, lsizenode]
  · rw [if_neg (by omega)]
    simp [grown, grows]

/-! ## Failed insertions -/

/-- The allocation that fails comes before any change, or none of the entries is between the two
parts of the table at that moment, and all of them have been counted. -/
def FailureHarmless (mp : MainPosition N) (mem : Memory) (t : Table N) (key : TValue N) : Prop :=
  if t.sizearray < (t.rehashSizes key).1 then
    mem.array = false ∨
    ∀ k, t.sizearray < arrayindex k → arrayindex k ≤ (t.rehashSizes key).1 → t.value mp k = .nil
  else
    mem.nodes = false ∨ maxBits < ceillog2 (t.rehashSizes key).2 ∨ t.Countable ∧ ∀ k, ¬ t.InArray k → t.value mp k = .nil

theorem rehashSizes_fields (t : Table N) (lastfree : Int) (flags : UInt8) (key : TValue N) :
    ({ t with lastfree, flags } : Table N).rehashSizes key = t.rehashSizes key := by
  have ints : ({ t with lastfree, flags } : Table N).countedInts key = t.countedInts key := by
    rw [countedInts, hashInts_congr]
    rfl
  have uses : ({ t with lastfree, flags } : Table N).totaluse = t.totaluse := by
    rw [totaluse_eq, totaluse_eq, hashUsed_congr]
    rfl
  rw [rehashSizes_counted, ints, uses, rehashSizes_counted t]

/-- A rehash asks for a node for the new key unless the key goes to the array part. -/
theorem keyNeed_le (t : Table N) (key : TValue N) : keyNeed (t.rehashSizes key).1 key ≤ (t.rehashSizes key).2 := by
  have small := t.rehashSizes_le key
  have count := computesizes_count (t.countedInts_positive key) fun i => rfl
  rw [rehashSizes_counted] at small ⊢
  simp only at small ⊢
  rw [count, totaluse_eq]
  generalize (computesizes (tally (t.countedInts key)) (t.countedInts key).length).1 = n at small ⊢
  have ofArray : upTo t.cut.arrayInts n ≤ t.cut.arrayInts.length := List.countP_le_length
  have ofHash := hashNeed_add small t t.sizenode
  have ofNew := keyNeed_add small key
  simp only [countedInts, upTo_append]
  omega

theorem rehashSizes_nodes (outside : ¬ t.InArray key) (stays : (t.rehashSizes key).1 ≤ t.sizearray) :
    (t.rehashSizes key).2 ≠ 0 := by
  have least := t.keyNeed_le key
  have need : keyNeed (t.rehashSizes key).1 key = 1 := by
    rw [InArray] at outside
    exact if_neg (by omega)
  omega

/-- A key of the array part is found there. -/
theorem rehash_outside {op : TableOp N} (rehashes : ∀ grow, op.insertionWith mp grow t = grow op.key t') : ¬ t.InArray op.key := by
  intro inside
  have refused := rehashes fun _ t => .error .stuck t
  have found (notNil : op.key ≠ .nil) : t.getSlot mp op.key ≠ .nilobject := by
    rw [getSlot_eq t notNil, if_pos inside]
    exact Slot.noConfusion
  cases op with
  | set key v =>
    have notNil : key ≠ .nil := by
      rintro rfl
      simp [TableOp.key, InArray, arrayindex] at inside
    have slot := found notNil
    simp only [TableOp.key] at slot
    simp [TableOp.insertionWith, setWith, slot] at refused
  | setnum k v =>
    have slot := found (isKey_castNum k.2).ne_nil
    simp only [TableOp.key, ← getnum_castNum t k.2] at slot
    simp [TableOp.insertionWith, setnumWith, slot] at refused
  | setstr s v => simp [TableOp.key, InArray, arrayindex] at inside

theorem insertAt_error {n : Nat} (failed : insertAt mp n key t = .error e t') : e = .stuck := by
  simp only [insertAt] at failed
  split at failed
  · split at failed
    · exact (EStateM.Result.error.inj failed).1.symm
    · cases failed
  · cases failed

theorem newkeyWith_refused (failed : newkeyWith mp (fun _ t => .error .stuck t) key t = .error e t') : e = .stuck := by
  by_cases taken : (!(t.node (mp.pos t.lsizenode key)).val.isNil || t.isDummy) = true
  · cases found : t.getfreepos with
    | mk lastfree free =>
      cases free with
      | none =>
        simp only [newkeyWith, taken, if_true, found] at failed
        exact (EStateM.Result.error.inj failed).1.symm
      | some n =>
        simp only [newkeyWith, taken, if_true, found] at failed
        exact insertAt_error failed
  · simp [newkeyWith, taken] at failed

/-- Without a rehash nothing is allocated. -/
theorem insertionWith_refused {op : TableOp N} (failed : op.insertionWith mp (fun _ t => .error .stuck t) t = .error e t') :
    e ≠ .memory ∧ e ≠ .tableOverflow := by
  have kinds : e = .stuck ∨ e = .indexNil ∨ e = .indexNaN := by
    cases op with
    | set key v =>
      simp only [TableOp.insertionWith, setWith] at failed
      split at failed
      · cases failed
      · split at failed
        · injection failed with e_eq
          exact .inr (.inl e_eq.symm)
        · split at failed
          · injection failed with e_eq
            exact .inr (.inr e_eq.symm)
          · exact .inl (newkeyWith_refused failed)
    | setnum k v =>
      simp only [TableOp.insertionWith, setnumWith] at failed
      split at failed
      · cases failed
      · exact .inl (newkeyWith_refused failed)
    | setstr s v =>
      simp only [TableOp.insertionWith, setstrWith] at failed
      split at failed
      · cases failed
      · exact .inl (newkeyWith_refused failed)
  obtain rfl | rfl | rfl := kinds <;> simp

/-- The table from which a `resize` that fails has started. -/
theorem ResizeFails.values_iff (countable : t.Countable)
    (nodes : (t.rehashSizes key).1 < t.sizearray → (t.rehashSizes key).2 ≠ 0)
    (fails : ResizeFails mp mem t (t.rehashSizes key).1 (t.rehashSizes key).2 e t') :
    (∀ k, t'.value mp k = t.value mp k) ↔ FailureHarmless mp mem t key := by
  unfold FailureHarmless
  generalize (t.rehashSizes key).1 = n at fails nodes ⊢
  generalize (t.rehashSizes key).2 = nh at fails nodes ⊢
  cases fails with
  | array grows short =>
    rw [if_pos grows]
    exact ⟨fun _ => .inl short, fun _ _ => rfl⟩
  | nodes grew some kind =>
    by_cases grows : t.sizearray < n
    · rw [if_pos grows]
      have allocated : ¬ mem.array = false := fun short => grew ⟨grows, short⟩
      constructor
      · intro same
        refine .inr fun k above inside => ?_
        rw [← same k, grown_value, if_pos ⟨above, inside⟩]
      · intro harmless k
        rw [grown_value]
        split
        · next moved => exact (harmless.resolve_left allocated k moved.1 moved.2).symm
        · rfl
    · rw [if_neg grows]
      refine ⟨fun _ => ?_, fun _ k => ?_⟩
      · obtain ⟨-, large⟩ | ⟨-, short⟩ := kind
        · exact .inr (.inl large)
        · exact .inl short
      · rw [grown_value, if_neg (by omega)]
  | shrink created shrinks short values =>
    obtain ⟨allocated, fits⟩ := created.resolve_left (nodes shrinks)
    rw [if_neg (by omega)]
    constructor
    · intro same
      refine .inr (.inr ⟨countable, fun k outside => ?_⟩)
      rw [← same k, values k]
      exact if_neg outside
    · intro harmless k
      have lost : ∀ k, ¬ t.InArray k → t.value mp k = .nil := by
        obtain short' | large | ⟨-, lost⟩ := harmless
        · rw [short'] at allocated
          cases allocated
        · omega
        · exact lost
      rw [values k]
      by_cases inside : t.InArray k
      · rw [value_of_inArray inside]
        exact if_pos inside
      · rw [lost k inside]
        exact if_neg inside

/-- When the first allocation of a `resize` fails, the table is as before. -/
theorem rehash_unchanged (stays : (t.rehashSizes key).1 ≤ t.sizearray) (nodes : (t.rehashSizes key).2 ≠ 0)
    (short : mem.nodes = false ∨ maxBits < ceillog2 (t.rehashSizes key).2)
    (failed : rehashThenSet mp grow mem key t = .error e t') : t' = t := by
  have grows : growArray mem.array (t.rehashSizes key).1 t = .ok () t := by
    rw [growArray_eq, if_neg (by omega), grown, if_neg (by omega)]
  have started : rehashThenSet mp grow mem key t =
      ((growArray mem.array (t.rehashSizes key).1 >>= fun _ => setnodevector mem.nodes (t.rehashSizes key).2 >>= fun _ =>
        shrinkArray mp grow mem.shrink t.sizearray (t.rehashSizes key).1 >>= fun _ =>
        reinsertNodes mp grow t.node t.sizenode) >>= fun _ => setWith mp grow key) t := rfl
  obtain ⟨t₁, -, created, -⟩ | ⟨e₁, ran, -⟩ := setnodevector_spec mem.nodes (t.rehashSizes key).2 t
  · obtain ⟨allocated, fits⟩ := created.resolve_left nodes
    obtain absent | large := short
    · rw [absent] at allocated
      cases allocated
    · omega
  · rw [started, bind_of_error ((bind_of_ok grows).trans (bind_of_error ran))] at failed
    exact (EStateM.Result.error.inj failed).2.symm

/-- In every table that a program can come by, after an insertion that could not get its memory, every key has the
value that it had before if no entry was on its way to the other part of the table; where a rehash counts all
entries, only then.  An insertion inside the `resize` that rehashes may also fail, in whatever way. -/
theorem failed_insertion_iff (reachable : ReachableIn 0 mp t) {op : TableOp N}
    (failed : op.insertionWith mp (rehashThenSet mp grow mem) t = .error e t') (raised : e = .memory ∨ e = .tableOverflow) :
    (FailureHarmless mp mem t op.key → ∀ k, t'.read (t'.getSlot mp k) = t.read (t.getSlot mp k)) ∧
      (t.Countable → (∀ k, t'.read (t'.getSlot mp k) = t.read (t.getSlot mp k)) → FailureHarmless mp mem t op.key) := by
  have chained := reachable.chained (Nat.zero_le _)
  obtain ⟨r, same⟩ | ⟨isKey, lastfree, flags, low, grows⟩ := @insertionWith_cases _ _ mp op t
  · have refused := (same fun _ t => .error .stuck t).trans ((same _).symm.trans failed)
    obtain ⟨notMemory, notOverflow⟩ := insertionWith_refused refused
    exact absurd raised (not_or.mpr ⟨notMemory, notOverflow⟩)
  · have outside := rehash_outside grows
    replace failed := (grows _).symm.trans failed
    have sizes := rehashSizes_fields t lastfree flags op.key
    have values (k : TValue N) : ({ t with lastfree, flags } : Table N).value mp k = t.value mp k :=
      setFields_value t lastfree flags k
    have harmless : FailureHarmless mp mem { t with lastfree, flags } op.key ↔ FailureHarmless mp mem t op.key := by
      unfold FailureHarmless
      rw [sizes]
      simp only [values]
      rfl
    have nodes (stays : (t.rehashSizes op.key).1 ≤ t.sizearray) := rehashSizes_nodes outside stays
    have counted (countable : t.Countable) :
        (∀ k, t'.value mp k = t.value mp k) ↔ FailureHarmless mp mem t op.key := by
      obtain ⟨slot, t₁, ran⟩ | ⟨e₁, t₁, ran, fails⟩ := ((chained.setLastfree low).setFlags flags).rehash_cases countable isKey grow mem
      · cases ran.symm.trans failed
      · obtain ⟨rfl, rfl⟩ := EStateM.Result.error.inj (ran.symm.trans failed)
        have filled (shrinks : (({ t with lastfree, flags } : Table N).rehashSizes op.key).1 < t.sizearray) :
            (({ t with lastfree, flags } : Table N).rehashSizes op.key).2 ≠ 0 := by
          rw [sizes] at shrinks ⊢
          exact nodes (le_of_lt shrinks)
        have iff : (∀ k, t₁.value mp k = ({ t with lastfree, flags } : Table N).value mp k) ↔
            FailureHarmless mp mem { t with lastfree, flags } op.key := fails.values_iff countable filled
        exact (forall_congr' fun k => by rw [values]).trans (iff.trans harmless)
    refine ⟨fun isHarmless => ?_, fun countable same => (counted countable).mp same⟩
    by_cases countable : t.Countable
    · exact (counted countable).mpr isHarmless
    · -- the array part is too large to grow, so that only the first allocation can do no harm
      obtain ⟨i, beyond, inside, -⟩ : ∃ i, maxASize ≤ i ∧ i < t.sizearray ∧ t.array i ≠ .nil := by
        simpa [Countable] using countable
      have stays : (t.rehashSizes op.key).1 ≤ t.sizearray := (t.rehashSizes_le op.key).trans (by omega)
      unfold FailureHarmless at isHarmless
      rw [if_neg (by omega)] at isHarmless
      have short : mem.nodes = false ∨ maxBits < ceillog2 (t.rehashSizes op.key).2 := by
        obtain short | large | ⟨counts, -⟩ := isHarmless
        · exact .inl short
        · exact .inr large
        · exact absurd counts countable
      have unchanged : t' = { t with lastfree, flags } := by
        refine rehash_unchanged ?_ ?_ ?_ failed
        · rw [sizes]
          exact stays
        · rw [sizes]
          exact nodes stays
        · rw [sizes]
          exact short
      rw [unchanged]
      exact values

end Table

/-- A store that puts the key 1 into the only node of a table without an array part. -/
def storeOne : TableOp Int := .setnum ⟨1, inInt_one⟩ (.boolean true)

def storeString : TableOp Int := .setstr 7 (.boolean true)

/-- The array part has grown over the key 1 when the node vector cannot be allocated. -/
theorem failed_insertion_hides_key : ∃ t t', runTable intPosition 0 1 [storeOne] = .ok t ∧
    storeString.insertion intPosition { nodes := false } t = .error .memory t' ∧
    t.read (t.getSlot intPosition (.number 1)) = .boolean true ∧
    t'.read (t'.getSlot intPosition (.number 1)) = .nil :=
  ⟨_, _, rfl, rfl, rfl, rfl⟩

/-- The table that holds the key 1 in its only node. -/
def oneNode : Table Int :=
  finalState (Table.storeAt (storeOne.insertionAt intPosition {} 1) storeOne.stored)
    { (Table.empty : Table Int) with isDummy := false, lastfree := 1 }

theorem oneNode_reachable : ReachableIn 0 intPosition oneNode := by
  have created : ReachableIn 0 intPosition { (Table.empty : Table Int) with isDummy := false, lastfree := 1 } :=
    @ReachableIn.new _ _ 0 intPosition {} 0 1 _ (by decide) rfl
  have proper : storeOne.Proper { (Table.empty : Table Int) with isDummy := false, lastfree := 1 } :=
    ⟨rfl, fun i a used => absurd rfl used⟩
  refine .store {} 1 created proper fun t' stuck => ?_
  cases stuck

/-- When the array part itself cannot be allocated, the key 1 stays where it was. -/
theorem failed_insertion_keeps_key : ∃ t', storeString.insertion intPosition { array := false } oneNode = .error .memory t' ∧
    ∀ k, t'.read (t'.getSlot intPosition k) = oneNode.read (oneNode.getSlot intPosition k) := by
  have failed : ∃ t', storeString.insertion intPosition { array := false } oneNode = .error .memory t' := ⟨_, rfl⟩
  have harmless : Table.FailureHarmless intPosition { array := false } oneNode storeString.key := .inl rfl
  obtain ⟨t', failed⟩ := failed
  have sameRun : storeString.insertionWith intPosition
      (Table.rehashThenSet intPosition (Table.rehashAndSet intPosition { array := false } 0) { array := false }) oneNode =
      .error .memory t' := failed
  exact ⟨t', failed, (Table.failed_insertion_iff oneNode_reachable sameRun (.inl rfl)).1 harmless⟩

end Gafq
