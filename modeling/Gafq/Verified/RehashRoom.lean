import Gafq.Verified.TableChains
import Gafq.Verified.TableRefinement

/-! # What a rehash counts

`numusearray` looks at no more than `2^26` elements of the array part, the largest number a rehash gives to
it.  `gafqH_new` and `gafqH_resizearray` may have made the array part larger.  When no element beyond is in
use, a rehash counts every entry, and all of them find room in the parts that it asks for.  This holds of
every table that a program can come by, also after stores that have failed.
-/

namespace Gafq

open Base

variable {N : Type} [GafqNumber N]

namespace Table

variable {slack bound : Nat} {mp : MainPosition N} {t t' old : Table N} {key ek : TValue N} {grow : TValue N → TableM N Slot}

/-- No element is in use where `numusearray` does not look. -/
def Countable (t : Table N) : Prop := ∀ i, maxASize ≤ i → i < t.sizearray → t.array i = .nil

/-- The table without the elements that `numusearray` does not look at. -/
def cut (t : Table N) : Table N := { t with sizearray := min t.sizearray maxASize }

/-- `totaluse` in `rehash`, with the extra key. -/
def totaluse (t : Table N) : Nat :=
  let (nums, nasize) := t.numusearray fun _ => 0
  let (_, _, used) := t.numusehash nums
  nasize + used + 1

/-- The number of elements and nodes that are in use. -/
def entries (t : Table N) : Nat := t.arrayInts.length + t.hashUsed t.sizenode

/-- What a rehash for a new key achieves: every entry and the key are counted once, the new parts have room for
them, and no insertion into the new parts begins another rehash. -/
structure RehashSound (mp : MainPosition N) (t : Table N) (ek : TValue N) : Prop where
  counts : t.totaluse = t.entries + 1
  room : t.resizeNeed (t.rehashSizes ek).1 + keyNeed (t.rehashSizes ek).1 ek ≤ (t.rehashSizes ek).2
  ends : ∀ mem t', rehashAndSet mp mem 1 ek t ≠ .error .stuck t'

/-! ## Counting -/

omit [GafqNumber N] in
theorem numusearrayLoop_cut (t : Table N) (slices : Nat) : ∀ lg i acc, slices + lg = maxBits + 1 →
    t.numusearrayLoop slices lg i acc = t.cut.numusearrayLoop slices lg i acc := by
  induction slices with
  | zero => exact fun _ _ _ _ => rfl
  | succ slices inductionHypothesis =>
    intro lg i acc last
    have slice : 2 ^ lg ≤ maxASize := Nat.pow_le_pow_right (by decide) (by omega)
    have size : t.cut.sizearray = min t.sizearray maxASize := rfl
    have lim : min (2 ^ lg) t.cut.sizearray = min (2 ^ lg) t.sizearray := by omega
    have ends : t.cut.sizearray < 2 ^ lg ↔ t.sizearray < 2 ^ lg := by omega
    unfold numusearrayLoop
    simp only [lim, ends]
    split
    · rfl
    · exact inductionHypothesis (lg + 1) _ _ (by omega)

omit [GafqNumber N] in
theorem numusearray_eq (t : Table N) (nums : Nat → Nat) :
    t.numusearray nums = (fun l => nums l + tally t.cut.arrayInts l, t.cut.arrayInts.length) := by
  rw [numusearray, numusearrayLoop_cut t _ 0 1 _ rfl]
  exact numusearray_spec (t := t.cut) (Nat.min_le_right ..) nums

theorem totaluse_eq (t : Table N) : t.totaluse = t.cut.arrayInts.length + t.hashUsed t.sizenode + 1 := by
  simp only [totaluse, numusearray_eq, numusehash, numusehashLoop_spec, Nat.zero_add]

/-- The integer keys that a rehash counts. -/
def countedInts (t : Table N) (ek : TValue N) : List Nat := t.cut.arrayInts ++ (t.hashInts t.sizenode ++ keyInts ek)

theorem rehashSizes_counted (t : Table N) (ek : TValue N) :
    t.rehashSizes ek =
      ((computesizes (tally (t.countedInts ek)) (t.countedInts ek).length).1,
        t.totaluse - (computesizes (tally (t.countedInts ek)) (t.countedInts ek).length).2) := by
  have counts : (fun l => tally t.cut.arrayInts l + tally (t.hashInts t.sizenode) l + tally (keyInts ek) l) =
      tally (t.countedInts ek) := by
    funext l
    simp only [countedInts, tally_append]
    omega
  have total : t.cut.arrayInts.length + (t.hashInts t.sizenode).length + (keyInts ek).length =
      (t.countedInts ek).length := by
    simp only [countedInts, List.length_append]
    omega
  simp only [rehashSizes, numusearray_eq, numusehash, numusehashLoop_spec, countint_spec, Nat.zero_add, counts, total,
    totaluse_eq]

theorem countedInts_positive (t : Table N) (ek : TValue N) : ∀ k ∈ t.countedInts ek, 1 ≤ k := by
  intro k member
  simp only [countedInts, List.mem_append, arrayInts, mem_arrayIntsFrom, mem_hashInts, mem_keyInts] at member
  obtain inArray | ⟨j, -, -, index⟩ | isNew := member <;> omega

omit [GafqNumber N] in
/-- The elements in use are those that are counted and those beyond. -/
theorem arrayInts_cut (t : Table N) : t.arrayInts = t.cut.arrayInts ++ t.arrayIntsFrom (maxASize + 1) := by
  have counted : t.cut.arrayInts =
      (List.range' 1 (min t.sizearray maxASize + 1 - 1)).filter fun k => !(t.array (k - 1)).isNil := rfl
  rw [counted, arrayInts, t.arrayIntsFrom_split 1 (min t.sizearray maxASize) (Nat.min_le_left ..)]
  by_cases inside : maxASize ≤ t.sizearray
  · rw [Nat.min_eq_right inside, Nat.max_eq_right (Nat.le_add_left ..)]
  · rw [arrayIntsFrom_nil (i := maxASize + 1) (by omega), arrayIntsFrom_nil (by omega)]

omit [GafqNumber N] in
theorem countable_iff : t.Countable ↔ t.arrayIntsFrom (maxASize + 1) = [] := by
  rw [List.eq_nil_iff_forall_not_mem]
  simp only [mem_arrayIntsFrom, not_and, not_not]
  constructor
  · intro countable k range
    exact countable (k - 1) (by omega) (by omega)
  · intro unused i beyond inside
    exact unused (i + 1) (by omega)

/-- The count is right exactly when nothing is in use beyond. -/
theorem totaluse_iff (t : Table N) : t.totaluse = t.entries + 1 ↔ t.Countable := by
  rw [totaluse_eq, entries, arrayInts_cut t, countable_iff, List.length_append, ← List.length_eq_zero_iff]
  omega

/-! ## Room -/

omit [GafqNumber N] in
theorem Countable.cut_arrayInts (countable : t.Countable) : t.cut.arrayInts = t.arrayInts := by
  rw [arrayInts_cut t, countable_iff.1 countable, List.append_nil]

/-- A rehash asks for as many nodes as there are keys that have no place in the array part. -/
theorem Countable.room (countable : t.Countable) (ek : TValue N) :
    t.resizeNeed (t.rehashSizes ek).1 + keyNeed (t.rehashSizes ek).1 ek ≤ (t.rehashSizes ek).2 := by
  have small := t.rehashSizes_le ek
  have count := computesizes_count (t.countedInts_positive ek) fun i => rfl
  have total := (totaluse_iff t).2 countable
  rw [rehashSizes_counted] at small ⊢
  simp only at small ⊢
  rw [count, total, entries]
  generalize (computesizes (tally (t.countedInts ek)) (t.countedInts ek).length).1 = n at small ⊢
  have ofArray := arrayInts_length t n
  have ofHash := hashNeed_add small t t.sizenode
  have ofNew := keyNeed_add small ek
  simp only [countedInts, countable.cut_arrayInts, upTo_append, resizeNeed]
  omega

/-! ## No other rehash -/

theorem ResizeFails.not_stuck {mem : Memory} {n nh : Nat} {e : TableError}
    (fails : ResizeFails mp mem old n nh e t') : e ≠ .stuck := by
  cases fails with
  | array | shrink => simp
  | nodes _ _ kind => obtain ⟨rfl, -⟩ | ⟨rfl, -⟩ := kind <;> simp

theorem ChainedIn.isKey_of_used (chained : ChainedIn slack mp t) (i : Nat) (used : (t.node i).val ≠ .nil) :
    IsKey (t.keys i) := chained.isKey fun free => used (chained.unused (.inl free))

theorem ChainedIn.sizearray_inInt (chained : ChainedIn slack mp t) : InInt (t.sizearray : Int) :=
  InInt.of_le chained.inInt (Nat.le_add_right ..)

/-- A resize with enough room does not rehash, and leaves the rest of the room. -/
theorem ChainedIn.resize_room (chained : ChainedIn slack mp old) (mem : Memory) {n nh extra : Nat} (small : n ≤ bound)
    (enough : old.resizeNeed n + extra ≤ nh) :
    (∃ t, resizeWith mp grow mem n nh old = .ok () t ∧ Arranged bound mp t ∧ t.sizearray = n ∧ extra ≤ t.room) ∨
      ∃ e t, resizeWith mp grow mem n nh old = .error e t ∧ ResizeFails mp mem old n nh e t := by
  unfold resizeNeed at enough
  obtain ⟨t, ran, wf, size, room, -⟩ | failed :=
    @resize_cases _ _ bound mp grow old chained.sizearray_inInt mem n nh small (by omega)
  · obtain ⟨t', ran', wf', parts, room', -⟩ :=
      @reinsertNodes_spec _ _ bound mp grow old chained.isKey_of_used old.sizenode t wf (by rw [size]; omega)
    rw [size] at room'
    exact .inl ⟨t', ran.trans ran', wf', parts.sizearray.trans size, by omega⟩
  · exact .inr failed

/-- `rehash` and the second insertion in `newkey`, for any rehash inside. -/
def rehashThenSet (mp : MainPosition N) (grow : TValue N → TableM N Slot) (mem : Memory) (key : TValue N) : TableM N Slot := do
  rehashWith mp grow mem key
  setWith mp grow key

/-- When everything is counted, a rehash and the insertion after it are done, or an allocation of the `resize` fails. -/
theorem ChainedIn.rehash_cases (chained : ChainedIn slack mp t) (countable : t.Countable) (isKey : IsKey ek)
    (grow : TValue N → TableM N Slot) (mem : Memory) :
    (∃ slot t', rehashThenSet mp grow mem ek t = .ok slot t') ∨
      ∃ e t', rehashThenSet mp grow mem ek t = .error e t' ∧
        ResizeFails mp mem t (t.rehashSizes ek).1 (t.rehashSizes ek).2 e t' := by
  have started : rehashThenSet mp grow mem ek t =
      (resizeWith mp grow mem (t.rehashSizes ek).1 (t.rehashSizes ek).2 >>= fun _ => setWith mp grow ek) t := rfl
  rw [started]
  obtain ⟨t₁, ran, wf, size, room⟩ | ⟨e, t₁, ran, fails⟩ :=
    @ChainedIn.resize_room _ _ slack maxASize mp t grow chained mem _ _ _ (t.rehashSizes_le ek) (countable.room ek)
  · obtain ⟨slot, t₂, ran', -⟩ := wf.setWith_places isKey (canTake_of_room size room) grow
    exact .inl ⟨slot, t₂, by rw [bind_of_ok ran, ran']⟩
  · exact .inr ⟨e, t₁, bind_of_error ran, fails⟩

/-- When everything is counted, a rehash and the insertion after it come to an end without another one. -/
theorem ChainedIn.rehash_ends (chained : ChainedIn slack mp t) (countable : t.Countable) (isKey : IsKey ek) (mem : Memory) :
    rehashAndSet mp mem 1 ek t ≠ .error .stuck t' := by
  rw [show rehashAndSet mp mem 1 ek t = rehashThenSet mp (rehashAndSet mp mem 0) mem ek t from rfl]
  obtain ⟨slot, t₁, ran⟩ | ⟨e, t₁, ran, fails⟩ := chained.rehash_cases countable isKey (rehashAndSet mp mem 0) mem
  · rw [ran]
    simp
  · rw [ran]
    intro stuck
    cases stuck
    exact fails.not_stuck rfl

theorem ChainedIn.rehashSound_iff (chained : ChainedIn slack mp t) (isKey : IsKey ek) : RehashSound mp t ek ↔ t.Countable := by
  constructor
  · intro sound
    exact (totaluse_iff t).1 sound.counts
  · intro countable
    exact ⟨(totaluse_iff t).2 countable, countable.room ek, fun mem t' => chained.rehash_ends countable isKey mem⟩

/-! ## When an insertion rehashes -/

/-- An insertion does without a rehash, or it is one. -/
def GrowsOrNot (insertion : (TValue N → TableM N Slot) → TableM N Slot) (key : TValue N) (t : Table N) : Prop :=
  (∃ r, ∀ grow, insertion grow t = r) ∨
    IsKey key ∧ ∃ (lastfree : Int) (flags : UInt8), lastfree ≤ t.lastfree ∧
      ∀ grow, insertion grow t = grow key { t with lastfree, flags }

theorem newkeyWith_cases (isKey : IsKey key) (t : Table N) : GrowsOrNot (fun grow => newkeyWith mp grow key) key t := by
  unfold GrowsOrNot newkeyWith
  have low := t.getfreepos_le
  by_cases taken : (!(t.node (mp.pos t.lsizenode key)).val.isNil || t.isDummy) = true
  · simp only [taken, if_true]
    cases found : t.getfreepos with
    | mk lastfree free =>
      rw [found] at low
      cases free with
      | none => exact .inr ⟨isKey, lastfree, t.flags, low, fun _ => rfl⟩
      | some n => exact .inl ⟨_, fun _ => rfl⟩
  · simp only [taken]
    exact .inl ⟨_, fun _ => rfl⟩

theorem get_or_newkeyWith_cases (isKey : IsKey key) (found : Slot) (t : Table N) :
    GrowsOrNot (fun grow t => if found ≠ .nilobject then .ok found t else newkeyWith mp grow key t) key t := by
  by_cases missing : found = .nilobject
  · have cases : GrowsOrNot (fun grow => newkeyWith mp grow key) key t := newkeyWith_cases isKey t
    simpa only [GrowsOrNot, missing, ne_eq, not_true_eq_false, if_false] using cases
  · exact .inl ⟨.ok found t, fun grow => if_pos missing⟩

theorem setWith_cases (key : TValue N) (t : Table N) : GrowsOrNot (fun grow => setWith mp grow key) key t := by
  unfold setWith
  by_cases isNil : key.isNil = true
  · exact .inl ⟨_, fun _ => by simp only [isNil, if_true]; rfl⟩
  by_cases isNaN : key.isNaN = true
  · exact .inl ⟨_, fun _ => by simp only [isNil, isNaN, if_true]; rfl⟩
  · have isKey := isKey_of_not_isNaN (by simpa using isNil) (by simpa using isNaN)
    obtain ⟨r, same⟩ | ⟨isKey, lastfree, flags, low, grows⟩ :=
      @get_or_newkeyWith_cases _ _ mp key isKey (t.getSlot mp key) { t with flags := 0 }
    · exact .inl ⟨r, fun grow => by simpa only [isNil, isNaN, Bool.false_eq_true, if_false] using same grow⟩
    · exact .inr ⟨isKey, lastfree, flags, low, fun grow => by simpa only [isNil, isNaN, Bool.false_eq_true, if_false] using grows grow⟩

end Table

/-- `TableOp.insertion` with any rehash. -/
def TableOp.insertionWith (mp : MainPosition N) (grow : TValue N → TableM N Slot) : TableOp N → TableM N Slot
  | .set key _ => Table.setWith mp grow key
  | .setnum k _ => Table.setnumWith mp grow k.1
  | .setstr s _ => Table.setstrWith mp grow s

namespace Table

variable {slack : Nat} {mp : MainPosition N} {t t' : Table N}

theorem insertionWith_cases (op : TableOp N) (t : Table N) :
    GrowsOrNot (fun grow => op.insertionWith mp grow) op.key t := by
  cases op with
  | set key v => exact setWith_cases key t
  | setnum k v => exact get_or_newkeyWith_cases (isKey_castNum k.2) _ t
  | setstr s v => exact get_or_newkeyWith_cases (isKey_string s) _ t

/-- The table on which an insertion calls `rehash`. -/
theorem rehash_state {op : TableOp N} (rehashes : ∀ grow, op.insertionWith mp grow t = grow op.key t') :
    IsKey op.key ∧ ∃ (lastfree : Int) (flags : UInt8), lastfree ≤ t.lastfree ∧ t' = { t with lastfree, flags } := by
  obtain ⟨r, same⟩ | ⟨isKey, lastfree, flags, low, grows⟩ := @insertionWith_cases _ _ mp op t
  · -- what does not depend on the rehash is not one
    have first := (same fun _ t => .error .memory t).symm.trans (rehashes _)
    have second := (same fun _ t => .error .stuck t).symm.trans (rehashes _)
    rw [first] at second
    cases second
  · have state := (grows fun _ t => .error .memory t).symm.trans (rehashes _)
    exact ⟨isKey, lastfree, flags, low, by injection state with _ state; exact state.symm⟩

theorem hashNeed_le (t : Table N) (n i : Nat) : t.hashNeed n i ≤ i := by
  induction i with
  | zero => exact le_refl _
  | succ i inductionHypothesis =>
    unfold hashNeed keyNeed
    split
    · omega
    · split <;> omega

theorem ChainedIn.hashNeed_bare (chained : ChainedIn slack mp t) (isDummy : t.isDummy = true) (n i : Nat) : t.hashNeed n i = 0 := by
  induction i with
  | zero => rfl
  | succ i inductionHypothesis =>
    have empty : (t.node i).val = .nil := chained.unused (.inl (chained.bare isDummy i))
    simp [hashNeed, empty, inductionHypothesis, TValue.isNil]

/-- `gafqH_resizearray` to a larger array part has room for all nodes. -/
theorem ChainedIn.resizearray_cases (chained : ChainedIn slack mp t) (mem : Memory) {n : Nat} (grows : t.sizearray ≤ n) :
    (∃ t', resizearray mp mem 0 n t = .ok () t' ∧ Arranged n mp t') ∨
      ∃ e t', resizearray mp mem 0 n t = .error e t' ∧ e ≠ .stuck := by
  have started : resizearray mp mem 0 n t =
      resizeWith mp (rehashAndSet mp mem 0) mem n (if t.isDummy then 0 else t.sizenode) t := rfl
  have nodes : t.hashNeed n t.sizenode ≤ if t.isDummy then 0 else t.sizenode := by
    cases isDummy : t.isDummy with
    | true => simp [chained.hashNeed_bare isDummy]
    | false => exact hashNeed_le t n t.sizenode
  have enough : t.resizeNeed n + 0 ≤ if t.isDummy then 0 else t.sizenode := by
    rw [resizeNeed, arrayIntsFrom_nil (by omega)]
    simpa using nodes
  rw [started]
  obtain ⟨t₁, ran, arranged, -⟩ | failed :=
    @ChainedIn.resize_room _ _ slack n mp t (rehashAndSet mp mem 0) chained mem n _ 0 (le_refl n) enough
  · exact .inl ⟨t₁, ran, arranged⟩
  · obtain ⟨e, t₁, ran, fails⟩ := failed
    exact .inr ⟨e, t₁, ran, fails.not_stuck⟩

theorem ChainedIn.resizearray_ends (chained : ChainedIn slack mp t) (mem : Memory) {n : Nat} (grows : t.sizearray ≤ n) :
    resizearray mp mem 0 n t ≠ .error .stuck t' := by
  obtain ⟨t₁, ran, -⟩ | ⟨e, t₁, ran, notStuck⟩ := chained.resizearray_cases mem grows
  · rw [ran]
    simp
  · rw [ran]
    intro stuck
    cases stuck
    exact notStuck rfl

end Table

/-- In every table that a program can come by, `gafqH_resizearray` to a larger array part does not rehash, and when an
insertion rehashes, the rehash is sound exactly when no element beyond the `2^26` that it looks at is in use. -/
theorem rehash_sound_iff {mp : MainPosition N} {t : Table N} (reachable : ReachableIn 0 mp t) :
    (∀ mem n t', t.sizearray ≤ n → Table.resizearray mp mem 0 n t ≠ .error .stuck t') ∧
      ∀ (op : TableOp N) t', (∀ grow, op.insertionWith mp grow t = grow op.key t') →
        (Table.RehashSound mp t' op.key ↔ t.Countable) := by
  have chained := reachable.chained (Nat.zero_le _)
  refine ⟨fun mem n t' grows => chained.resizearray_ends mem grows, fun op t' rehashes => ?_⟩
  obtain ⟨isKey, lastfree, flags, low, rfl⟩ := Table.rehash_state rehashes
  exact ((chained.setLastfree low).setFlags flags).rehashSound_iff isKey

/-- A new table with an array part that is larger than a rehash looks at. -/
def largeTable : Table Int :=
  { array := fun _ => .nil, sizearray := maxASize + 1, node := fun _ => {}, lsizenode := 0, isDummy := true, lastfree := 0,
    flags := 255 }

theorem largeTable_reachable : ReachableIn 0 intPosition largeTable :=
  @ReachableIn.new Int _ 0 intPosition {} (maxASize + 1) 0 largeTable (by decide) rfl

/-- Its last element is in use. -/
def lastUsed : Table Int := largeTable.write (.array maxASize) (.boolean true)

/-- The store that leads there. -/
def useLast : TableOp Int := .setnum ⟨67108865, by decide⟩ (.boolean true)

theorem lastUsed_reachable : ReachableIn 0 intPosition lastUsed := by
  have inserted : useLast.insertionAt intPosition {} 1 largeTable = .ok (.array maxASize) largeTable := rfl
  have stored : finalState (Table.storeAt (useLast.insertionAt intPosition {} 1) useLast.stored) largeTable = lastUsed := by
    rw [finalState, Table.storeAt_of_ok inserted]
    rfl
  rw [← stored]
  apply ReachableIn.store {} 1 largeTable_reachable
  · exact ⟨rfl, fun i a used => absurd rfl used⟩
  · intro t'
    rw [inserted]
    simp

theorem rehash_lastUsed : ReachableIn 0 intPosition lastUsed ∧
    ∃ t', (∀ grow, (TableOp.set (.string 0) (.boolean true)).insertionWith intPosition grow lastUsed = grow (.string 0) t') ∧
      ¬ Table.RehashSound intPosition t' (.string 0) := by
  refine ⟨lastUsed_reachable, { lastUsed with lastfree := -1, flags := 0 }, fun grow => rfl, fun sound => ?_⟩
  have countable := (Table.totaluse_iff _).1 sound.counts
  have unused := countable maxASize (le_refl _) (Nat.lt_succ_self _)
  simp [lastUsed, Table.write] at unused

theorem rehash_sound_iff_largeTable :
    ∃ t', (∀ grow, (TableOp.set (.string 0) (.boolean true)).insertionWith intPosition grow largeTable = grow (.string 0) t') ∧
      (Table.RehashSound intPosition t' (.string 0) ↔ largeTable.Countable) :=
  ⟨{ largeTable with flags := 0, lastfree := -1 }, fun _ => rfl,
    (rehash_sound_iff largeTable_reachable).2 (.set (.string 0) (.boolean true)) _ fun _ => rfl⟩

end Gafq
