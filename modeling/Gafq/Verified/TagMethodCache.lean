import Gafq.TagMethods
import Gafq.Verified.TableChains

/-! # The flags of a table are right

A table notes that it does not have a tag method, and the note is believed until a store deletes it.  The
fields of a table change in many places: nodes move when a key is inserted, all entries are inserted again
by a rehash, and a store takes place some time after its key was inserted, with a lookup in between that may
write a new note.  What all of them keep is a property of single nodes: a node with the name of a tag method
that is noted as missing holds nothing.
-/

namespace Gafq

open Base

variable {N : Type} [GafqNumber N]

namespace Table

variable {mp : MainPosition N} {tmname : TMS → Nat} {t t' : Table N} {key : TValue N} {grow : TValue N → TableM N Slot}

/-! ## The invariant -/

section Nodes

omit [GafqNumber N]

/-- What is noted is so. -/
structure Cached (tmname : TMS → Nat) (t : Table N) : Prop where
  unused : ∀ i, t.keys i = .nil → (t.node i).val = .nil
  absent : ∀ e, t.noted e = true → ∀ i, t.keys i = .string (tmname e) → (t.node i).val = .nil

/-- A store under the key will not contradict what is noted. -/
def Unnoted (tmname : TMS → Nat) (t : Table N) (key : TValue N) : Prop := t.flags = 0 ∨ ∀ e, key ≠ .string (tmname e)

/-- A value may be stored there. -/
def StoreReady (tmname : TMS → Nat) (slot : Slot) (t : Table N) : Prop :=
  Cached tmname t ∧ ∀ i, slot = .node i → t.keys i ≠ .nil ∧ Unnoted tmname t (t.keys i)

theorem noted_zero (flags : t.flags = 0) (e : TMS) : t.noted e = false := by
  rw [noted, flags]
  exact Nat.zero_testBit _

/-- Nothing is noted. -/
theorem Cached.of_flags (unused : ∀ i, t.keys i = .nil → (t.node i).val = .nil) (flags : t.flags = 0) :
    Cached tmname t where
  unused := unused
  absent e noted := by
    rw [noted_zero flags] at noted
    cases noted

/-- The nodes of `t'` are those of `t`, perhaps at other positions, or they are empty. -/
theorem Cached.of_origin (cached : Cached tmname t) (flags : t'.flags = t.flags)
    (origin : ∀ i, (t'.node i).val = .nil ∨ ∃ j, t'.keys i = t.keys j ∧ (t'.node i).val = (t.node j).val) :
    Cached tmname t' where
  unused i free := by
    rcases origin i with empty | ⟨j, sameKey, sameVal⟩
    · exact empty
    · rw [sameVal]
      exact cached.unused j (sameKey ▸ free)
  absent e noted i isName := by
    rcases origin i with empty | ⟨j, sameKey, sameVal⟩
    · exact empty
    · rw [sameVal]
      have noted' : t.noted e = true := by rwa [Table.noted, flags] at noted
      exact cached.absent e noted' j (sameKey ▸ isName)

theorem Cached.setFlags (cached : Cached tmname t) : Cached tmname { t with flags := 0 } :=
  .of_flags cached.unused rfl

/-- A store. -/
theorem StoreReady.write {slot : Slot} (ready : StoreReady tmname slot t) (v : TValue N) : Cached tmname (t.write slot v) := by
  obtain ⟨cached, keyOf⟩ := ready
  cases slot with
  | array | nilobject => exact cached.of_origin rfl fun i => .inr ⟨i, rfl, rfl⟩
  | node j =>
    obtain ⟨used, unnoted⟩ := keyOf j rfl
    have others : ∀ i, i ≠ j → ((t.write (.node j) v).node i).val = (t.node i).val := fun i other => by
      simp [Table.write, other]
    constructor
    · intro i free
      rw [write_keys] at free
      have other : i ≠ j := by
        rintro rfl
        exact used free
      rw [others i other]
      exact cached.unused i free
    · intro e noted i isName
      rw [write_keys] at isName
      have other : i ≠ j := by
        rintro rfl
        rcases unnoted with flags | notName
        · have zero : (t.write (.node i) v).noted e = t.noted e := rfl
          rw [zero, noted_zero flags] at noted
          cases noted
        · exact notName e isName
      rw [others i other]
      exact cached.absent e noted i isName

/-! ## New keys -/

/-- What the rehash inside an insertion must keep. -/
def GrowsCached (tmname : TMS → Nat) (grow : TValue N → TableM N Slot) : Prop :=
  ∀ key : TValue N, key ≠ .nil → Ensures (Cached tmname) (grow key) (StoreReady tmname) (Cached tmname)

/-- The new key is at a node without a value. -/
theorem Cached.setKey (cached : Cached tmname t) {i : Nat} (empty : (t.node i).val = .nil) (notNil : key ≠ .nil)
    (unnoted : Unnoted tmname t key) : StoreReady tmname (.node i) (t.setKey i key) := by
  constructor
  · refine cached.of_origin (show (t.setKey i key).flags = t.flags from rfl) fun j => ?_
    by_cases here : j = i
    · left
      rw [here, setKey_node, if_pos rfl]
      exact empty
    · right
      refine ⟨j, ?_, ?_⟩
      · rw [setKey_keys, Function.update_of_ne here]
      · rw [setKey_node, if_neg here]
  · intro j isSlot
    cases isSlot
    rw [setKey_keys, Function.update_self]
    exact ⟨notNil, unnoted⟩

theorem chainNode_keys (t : Table N) (m n : Nat) : (t.chainNode m n).keys = t.keys := by
  funext j
  simp only [keys, Table.chainNode, Function.update_apply]
  split <;> split <;> simp_all

theorem chainNode_val (t : Table N) (m n j : Nat) : ((t.chainNode m n).node j).val = (t.node j).val := by
  simp only [Table.chainNode, Function.update_apply]
  split <;> split <;> simp_all

/-- The key is at the free node `n`. -/
theorem Cached.link (cached : Cached tmname t) {m n : Nat} (free : t.keys n = .nil) (notNil : key ≠ .nil)
    (unnoted : Unnoted tmname t key) : StoreReady tmname (.node n) ((t.chainNode m n).setKey n key) := by
  have linked : Cached tmname (t.chainNode m n) :=
    cached.of_origin rfl fun i => .inr ⟨i, by rw [chainNode_keys], t.chainNode_val m n i⟩
  have empty : ((t.chainNode m n).node n).val = .nil := by
    rw [chainNode_val]
    exact cached.unused n free
  exact linked.setKey empty notNil unnoted

/-- The key takes the place of the node at `m`, which moves to `n`. -/
theorem Cached.move (cached : Cached tmname t) {prev m n : Nat} (notNil : key ≠ .nil) (unnoted : Unnoted tmname t key) :
    StoreReady tmname (.node m) ((t.moveNode prev m n).setKey m key) := by
  have emptied : ((t.moveNode prev m n).node m).val = .nil := by simp [moveNode]
  have moved : Cached tmname (t.moveNode prev m n) := by
    refine cached.of_origin (show (t.moveNode prev m n).flags = t.flags from rfl) fun j => ?_
    by_cases atM : j = m
    · rw [atM]
      exact .inl emptied
    · right
      by_cases atN : j = n
      · refine ⟨m, ?_, ?_⟩
        all_goals
          simp only [keys, moveNode, Function.update_apply]
          split <;> split <;> simp_all
      · refine ⟨j, ?_, ?_⟩
        all_goals
          simp only [keys, moveNode, Function.update_apply]
          split <;> split <;> simp_all
  exact moved.setKey emptied notNil unnoted

theorem Cached.setLastfree (cached : Cached tmname t) (lastfree : Int) : Cached tmname { t with lastfree } :=
  ⟨cached.unused, cached.absent⟩

end Nodes

/-! ## Insertions -/

theorem newkeyWith_cached (grows : GrowsCached tmname grow) (notNil : key ≠ .nil) :
    Ensures (fun t => Cached tmname t ∧ Unnoted tmname t key) (newkeyWith mp grow key) (StoreReady tmname)
      (Cached tmname) := by
  intro t ⟨cached, unnoted⟩
  unfold newkeyWith
  by_cases test : (!(t.node (mp.pos t.lsizenode key)).val.isNil || t.isDummy) = true
  · simp only [test, if_true]
    cases found : t.getfreepos with
    | mk lastfree free =>
      have cached' := cached.setLastfree lastfree
      cases free with
      | none => exact grows key notNil _ cached'
      | some n =>
        obtain ⟨-, -, free⟩ := getfreepos_free found
        simp only [insertAt]
        -- colliding node out of its main position?
        by_cases atHome : mp.pos t.lsizenode (t.keys (mp.pos t.lsizenode key)) = mp.pos t.lsizenode key
        · rw [if_neg (by simpa [keys] using atHome)]
          exact cached'.link free notNil unnoted
        · rw [if_pos (by simpa [keys] using atHome)]
          cases walk ({ t with lastfree } : Table N).next (fun i => ({ t with lastfree } : Table N).next i ==
              some (mp.pos t.lsizenode key)) ({ t with lastfree } : Table N).sizenode
              (mp.pos t.lsizenode (t.node (mp.pos t.lsizenode key)).key) with
          | none => exact cached'
          | some prev => exact cached'.move notNil unnoted
  · simp only [test, if_false, Bool.false_eq_true]
    have empty : (t.node (mp.pos t.lsizenode key)).val = .nil := by
      simp only [Bool.not_eq_true, Bool.or_eq_false_iff, Bool.not_eq_false'] at test
      exact TValue.isNil_iff.1 test.1
    exact cached.setKey empty notNil unnoted

/-- A node that a search finds has a key that passes the test. -/
theorem getSlot_key {i : Nat} (notNil : key ≠ .nil) (found : t.getSlot mp key = .node i) : t.keys i ≠ .nil := by
  intro free
  rw [getSlot_eq t notNil] at found
  split at found
  · cases found
  · have equal := search_test found
    rw [free, rawequalObj_nil notNil] at equal
    cases equal

/-- `gafqH_set` deletes all notes before it looks for a place. -/
theorem setWith_cached (grows : GrowsCached tmname grow) (key : TValue N) :
    Ensures (Cached tmname) (setWith mp grow key) (StoreReady tmname) (Cached tmname) := by
  intro t cached
  have cached' := cached.setFlags
  unfold setWith
  by_cases isNil : key = .nil
  · subst isNil
    exact cached'
  have notNil : key.isNil = false := by simpa using isNil
  by_cases missing : t.getSlot mp key = .nilobject
  · simp only [missing, ne_eq, not_true_eq_false, if_false, notNil, Bool.false_eq_true]
    cases key.isNaN with
    | true => exact cached'
    | false => exact newkeyWith_cached grows isNil _ ⟨cached', .inl rfl⟩
  · simp only [ne_eq, missing, not_false_eq_true, if_true]
    exact ⟨cached', fun i found => ⟨getSlot_key isNil found, .inl rfl⟩⟩

/-- A number is not a name. -/
theorem setnumWith_cached (grows : GrowsCached tmname grow) (k : Int) :
    Ensures (Cached tmname) (setnumWith mp grow k) (StoreReady tmname) (Cached tmname) := by
  intro t cached
  have notNil : TValue.number (castNum k : N) ≠ .nil := nofun
  unfold setnumWith
  by_cases missing : t.getnum mp k = .nilobject
  · simp only [missing, ne_eq, not_true_eq_false, if_false]
    exact newkeyWith_cached grows notNil t ⟨cached, .inr nofun⟩
  · simp only [ne_eq, missing, not_false_eq_true, if_true]
    refine ⟨cached, fun i found => ?_⟩
    unfold getnum at found
    split at found
    · cases found
    · have isNumber := search_test found
      constructor
      · intro free
        simp [free, TValue.isNumber] at isNumber
      · exact .inr fun e isName => by simp [isName, TValue.isNumber] at isNumber

/-- A field that is not the name of a tag method. -/
theorem setstrWith_cached (grows : GrowsCached tmname grow) {s : Nat} (notName : ∀ e, tmname e ≠ s) :
    Ensures (Cached tmname) (setstrWith mp grow s) (StoreReady tmname) (Cached tmname) := by
  intro t cached
  have notNil : (TValue.string s : TValue N) ≠ .nil := nofun
  have unnoted : ∀ e, TValue.string s ≠ (.string (tmname e) : TValue N) := by
    intro e same
    injection same with same
    exact notName e same.symm
  unfold setstrWith
  by_cases missing : t.getstr mp s = .nilobject
  · simp only [missing, ne_eq, not_true_eq_false, if_false]
    exact newkeyWith_cached grows notNil t ⟨cached, .inr unnoted⟩
  · simp only [ne_eq, missing, not_false_eq_true, if_true]
    refine ⟨cached, fun i found => ?_⟩
    have isString : TValue.isString s (t.keys i) = true := search_test found
    have isKey : t.keys i = .string s := by
      cases same : t.keys i <;> simp_all [TValue.isString]
    rw [isKey]
    exact ⟨nofun, .inr unnoted⟩

omit [GafqNumber N] in
theorem storeAt_cached {insertion : TableM N Slot} (v : TValue N)
    (ready : Ensures (Cached tmname) insertion (StoreReady tmname) (Cached tmname)) :
    Ensures (Cached tmname) (storeAt insertion v) (fun _ => Cached tmname) (Cached tmname) :=
  ready.bind fun _ => .modify fun _ found => found.write v

/-! ## Rehashing -/

theorem reinsertArray_cached (grows : GrowsCached tmname grow) (n : Nat) : ∀ i : Nat,
    Ensures (Cached tmname) (reinsertArray mp grow i n) (fun _ => Cached tmname) (Cached tmname) := by
  induction n with
  | zero => exact fun i t cached => cached
  | succ n inductionHypothesis =>
    intro i t cached
    have body : Ensures (Cached tmname)
        (if !(t.array i).isNil then
          storeAt (setnumWith mp grow ((i : Int) + 1)) (t.array i) >>= fun _ => reinsertArray mp grow (i + 1) n
        else reinsertArray mp grow (i + 1) n)
        (fun _ => Cached tmname) (Cached tmname) :=
      .ite (fun _ => (storeAt_cached _ (setnumWith_cached grows _)).bind fun _ => inductionHypothesis (i + 1))
        fun _ => inductionHypothesis (i + 1)
    exact body t cached

theorem reinsertNodes_cached (grows : GrowsCached tmname grow) (nold : Nat → Node N) (i : Nat) :
    Ensures (Cached tmname) (reinsertNodes mp grow nold i) (fun _ => Cached tmname) (Cached tmname) := by
  induction i with
  | zero => exact fun t cached => cached
  | succ i inductionHypothesis =>
    have body : Ensures (Cached tmname)
        (if !(nold i).val.isNil then
          storeAt (setWith mp grow (nold i).key) (nold i).val >>= fun _ => reinsertNodes mp grow nold i
        else reinsertNodes mp grow nold i)
        (fun _ => Cached tmname) (Cached tmname) :=
      .ite (fun _ => (storeAt_cached _ (setWith_cached grows _)).bind fun _ => inductionHypothesis)
        fun _ => inductionHypothesis
    exact body

omit [GafqNumber N] in
theorem setarrayvector_cached (ok : Bool) (size : Nat) :
    Ensures (Cached tmname) (setarrayvector ok size : TableM N Unit) (fun _ => Cached tmname) (Cached tmname) := by
  intro t cached
  cases ok with
  | false => exact cached
  | true => exact ⟨cached.unused, cached.absent⟩

omit [GafqNumber N] in
/-- The nodes of a new vector are empty. -/
theorem setnodevector_cached (ok : Bool) (size : Nat) :
    Ensures (Cached tmname) (setnodevector ok size : TableM N Unit) (fun _ => Cached tmname) (Cached tmname) := by
  intro t cached
  unfold setnodevector
  by_cases none : size = 0
  · rw [if_pos none]
    exact ⟨fun _ _ => rfl, fun _ _ _ _ => rfl⟩
  · rw [if_neg none]
    by_cases large : maxBits < ceillog2 size
    · simp only [large, if_true]
      exact cached
    · cases ok with
      | false =>
        simp only [large, if_false, Bool.false_eq_true]
        exact cached
      | true =>
        simp only [large, if_false, if_true]
        exact ⟨fun _ _ => rfl, fun _ _ _ _ => rfl⟩

omit [GafqNumber N] in
theorem growArray_cached (ok : Bool) (nasize : Nat) :
    Ensures (Cached tmname) (growArray ok nasize : TableM N Unit) (fun _ => Cached tmname) (Cached tmname) := by
  intro t cached
  unfold growArray
  by_cases grows : t.sizearray < nasize
  · simp only [grows, if_true]
    exact setarrayvector_cached ok nasize t cached
  · simp only [grows, if_false]
    exact cached

theorem shrinkArray_cached (grows : GrowsCached tmname grow) (ok : Bool) (oldasize nasize : Nat) :
    Ensures (Cached tmname) (shrinkArray mp grow ok oldasize nasize) (fun _ => Cached tmname) (Cached tmname) := by
  intro t cached
  unfold shrinkArray
  by_cases shrinks : nasize < oldasize
  · rw [if_pos shrinks]
    have loop : Ensures (Cached tmname) (reinsertArray mp grow nasize (oldasize - nasize) >>= fun _ =>
        shrinkVector ok nasize) (fun _ => Cached tmname) (Cached tmname) := by
      apply (reinsertArray_cached grows (oldasize - nasize) nasize).bind
      intro _ t kept
      unfold shrinkVector
      by_cases fails : 0 < nasize ∧ ok = false
      · rw [if_pos fails]
        exact kept
      · rw [if_neg fails]
        exact kept
    exact loop _ ⟨cached.unused, cached.absent⟩
  · rw [if_neg shrinks]
    exact cached

theorem resizeWith_cached (grows : GrowsCached tmname grow) (mem : Memory) (nasize nhsize : Nat) :
    Ensures (Cached tmname) (resizeWith mp grow mem nasize nhsize) (fun _ => Cached tmname) (Cached tmname) := by
  intro t cached
  have loops : Ensures (Cached tmname) (growArray mem.array nasize >>= fun _ => setnodevector mem.nodes nhsize >>=
      fun _ => shrinkArray mp grow mem.shrink t.sizearray nasize >>= fun _ => reinsertNodes mp grow t.node t.sizenode)
      (fun _ => Cached tmname) (Cached tmname) :=
    (growArray_cached mem.array nasize).bind fun _ => (setnodevector_cached mem.nodes nhsize).bind fun _ =>
      (shrinkArray_cached grows mem.shrink t.sizearray nasize).bind fun _ => reinsertNodes_cached grows t.node t.sizenode
  exact loops t cached

theorem rehashAndSet_cached (mem : Memory) (depth : Nat) : GrowsCached tmname (rehashAndSet mp mem depth) := by
  induction depth with
  | zero => exact fun _ _ t cached => cached
  | succ depth inductionHypothesis =>
    intro key _ t cached
    have both : Ensures (Cached tmname)
        (resizeWith mp (rehashAndSet mp mem depth) mem (t.rehashSizes key).1 (t.rehashSizes key).2 >>= fun _ =>
          setWith mp (rehashAndSet mp mem depth) key) (StoreReady tmname) (Cached tmname) :=
      (resizeWith_cached inductionHypothesis mem _ _).bind fun _ => setWith_cached inductionHypothesis key
    exact both t cached

theorem resizearray_cached (mem : Memory) (depth nasize : Nat) :
    Ensures (Cached tmname) (resizearray mp mem depth nasize) (fun _ => Cached tmname) (Cached tmname) :=
  fun t cached => resizeWith_cached (rehashAndSet_cached mem depth) mem nasize _ t cached

omit [GafqNumber N] in
theorem empty_cached : Cached tmname (empty : Table N) := ⟨fun _ _ => rfl, fun _ _ _ _ => rfl⟩

theorem new_cached {mem : Memory} {narray nhash : Nat} (created : Table.new mem narray nhash = .ok () t) :
    Cached tmname t := by
  have start : Cached tmname (empty : Table N) := empty_cached
  have made := ((setarrayvector_cached mem.array narray).bind fun _ => setnodevector_cached mem.nodes nhash) empty start
  have same : (setarrayvector mem.array narray >>= fun _ => setnodevector mem.nodes nhash) (empty : Table N) =
      .ok () t := created
  rw [same] at made
  exact made

/-! ## One table -/

/-- What is kept of every table: its chains, and its notes. -/
structure Noting (mp : MainPosition N) (tmname : TMS → Nat) (t : Table N) : Prop where
  chained : ChainedIn 0 mp t
  cached : Cached tmname t

omit [GafqNumber N] in
theorem not_isDeadkey (live : ∀ a, key ≠ .deadkey a) : key.isDeadkey = false := by
  cases key with
  | deadkey a => exact absurd rfl (live a)
  | nil | boolean | lightuserdata | number | string | object => rfl

/-- A store by an insertion that keeps both. -/
theorem Noting.store (noting : Noting mp tmname t) {insertion : TableM N Slot} (v : TValue N)
    (placed : Ensures (ChainedIn 0 mp) insertion (Placed 0 mp) (ChainedIn 0 mp))
    (ready : Ensures (Cached tmname) insertion (StoreReady tmname) (Cached tmname)) :
    Noting mp tmname (finalState (storeAt insertion v) t) :=
  ⟨(storeAt_chained v placed).finalState noting.chained, (storeAt_cached v ready).finalState noting.cached⟩

theorem setlistLoop_chained (mem : Nat → Memory) (depth : Nat) (vals : List (TValue N)) : ∀ last : Int, InInt last →
    InInt (last - vals.length) → Ensures (ChainedIn 0 mp) (setlistLoop mp depth mem last vals) (fun _ => ChainedIn 0 mp)
      (ChainedIn 0 mp) := by
  induction vals with
  | nil => exact fun _ _ _ t chained => chained
  | cons val vals inductionHypothesis =>
    intro last inInt first
    have first' : InInt (last - 1 - vals.length) := by
      simp only [List.length_cons] at first
      rwa [show last - 1 - (vals.length : Int) = last - (vals.length + 1 : Nat) by omega]
    have before : InInt (last - 1) := by
      unfold InInt at inInt first' ⊢
      omega
    have grows : Grows 0 mp (rehashAndSet mp (mem vals.length) depth) := rehashAndSet_grows (Nat.zero_le _) _ depth
    exact (storeAt_chained val (setnumWith_placed grows inInt)).bind fun _ => inductionHypothesis (last - 1) before first'

theorem setlistLoop_cached (mem : Nat → Memory) (depth : Nat) (vals : List (TValue N)) : ∀ last : Int,
    Ensures (Cached tmname) (setlistLoop mp depth mem last vals) (fun _ => Cached tmname) (Cached tmname) := by
  induction vals with
  | nil => exact fun _ t cached => cached
  | cons val vals inductionHypothesis =>
    intro last
    have grows : GrowsCached tmname (rehashAndSet mp (mem vals.length) depth) := rehashAndSet_cached _ depth
    exact (storeAt_cached val (setnumWith_cached grows last)).bind fun _ => inductionHypothesis (last - 1)

/-- The array part may grow before the loop. -/
theorem setlist_eq (mem : Nat → Memory) (depth : Nat) (c : Int) (vals : List (TValue N)) (t : Table N) :
    setlist mp depth mem c vals t =
      if setlistLast c vals > t.sizearray then
        (resizearray mp (mem vals.length) depth (setlistLast c vals).toNat >>= fun _ =>
          setlistLoop mp depth mem (setlistLast c vals) vals.reverse) t
      else setlistLoop mp depth mem (setlistLast c vals) vals.reverse t := by
  by_cases grows : setlistLast c vals > t.sizearray
  · rw [if_pos grows]
    simp only [setlist, bind, EStateM.bind, get, getThe, MonadStateOf.get, EStateM.get, grows, if_true]
  · rw [if_neg grows]
    simp only [setlist, bind, EStateM.bind, get, getThe, MonadStateOf.get, EStateM.get, grows, if_false]

theorem setlist_chained (mem : Nat → Memory) (depth : Nat) {c : Int} {vals : List (TValue N)}
    (first : InInt ((c - 1) * lfieldsPerFlush)) (last : InInt (setlistLast c vals)) :
    Ensures (ChainedIn 0 mp) (setlist mp depth mem c vals) (fun _ => ChainedIn 0 mp) (ChainedIn 0 mp) := by
  have front : setlistLast c vals - vals.reverse.length = (c - 1) * lfieldsPerFlush := by
    simp [setlistLast]
  have loop := @setlistLoop_chained _ _ mp mem depth vals.reverse _ last (by rwa [front])
  intro t chained
  rw [setlist_eq]
  by_cases grows : setlistLast c vals > t.sizearray
  · rw [if_pos grows]
    have size : InInt ((setlistLast c vals).toNat + 0 : Nat) := by
      unfold InInt at last ⊢
      omega
    have resized : Ensures (ChainedIn 0 mp) (resizearray mp (mem vals.length) depth (setlistLast c vals).toNat)
        (fun _ => ChainedIn 0 mp) (ChainedIn 0 mp) := fun t chained =>
      resizeWith_chained (rehashAndSet_grows (Nat.zero_le _) (mem vals.length) depth) _ _ size t chained
    exact (resized.bind fun _ => loop) t chained
  · rw [if_neg grows]
    exact loop t chained

theorem setlist_cached (mem : Nat → Memory) (depth : Nat) (c : Int) (vals : List (TValue N)) :
    Ensures (Cached tmname) (setlist mp depth mem c vals) (fun _ => Cached tmname) (Cached tmname) := by
  have loop := @setlistLoop_cached _ _ mp tmname mem depth vals.reverse (setlistLast c vals)
  intro t cached
  rw [setlist_eq]
  by_cases grows : setlistLast c vals > t.sizearray
  · rw [if_pos grows]
    exact ((resizearray_cached _ depth _).bind fun _ => loop) t cached
  · rw [if_neg grows]
    exact loop t cached

theorem Noting.clear (noting : Noting mp tmname t) (slot : Slot) : Noting mp tmname (t.write slot .nil) := by
  have flags : (t.write slot .nil).flags = t.flags := by cases slot <;> rfl
  refine ⟨noting.chained.clear slot, noting.cached.of_origin flags fun i => ?_⟩
  cases slot with
  | array | nilobject => exact .inr ⟨i, rfl, rfl⟩
  | node j =>
    by_cases here : i = j
    · exact .inl (by simp [Table.write, here])
    · exact .inr ⟨i, by rw [write_keys], by simp [Table.write, here]⟩

theorem Noting.removeentry (noting : Noting mp tmname t) {i : Nat} (empty : (t.node i).val = .nil) :
    Noting mp tmname (t.removeentry i) := by
  refine ⟨noting.chained.removeentry empty, noting.cached.of_origin rfl fun j => ?_⟩
  by_cases here : j = i
  · left
    rw [removeentry_val, here, empty]
  · right
    exact ⟨j, by rw [removeentry_keys, Function.update_of_ne here], t.removeentry_val i j⟩

/-- One table through a step. -/
theorem Noting.step (noting : Noting mp tmname t) (step : TableStep mp tmname t t') : Noting mp tmname t' := by
  have grows (mem : Memory) (depth : Nat) : Grows 0 mp (rehashAndSet mp mem depth) :=
    rehashAndSet_grows (Nat.zero_le _) mem depth
  cases step with
  | rawset mem depth v live =>
    exact noting.store v (setWith_placed (grows mem depth) (not_isDeadkey live))
      (setWith_cached (rehashAndSet_cached mem depth) _)
  | rawseti mem depth v inInt =>
    exact noting.store v (setnumWith_placed (grows mem depth) inInt) (setnumWith_cached (rehashAndSet_cached mem depth) _)
  | setlist mem depth first last =>
    exact ⟨(setlist_chained mem depth first last).finalState noting.chained,
      (setlist_cached mem depth _ _).finalState noting.cached⟩
  | storestr mem depth v notName =>
    exact noting.store v (setstrWith_placed (grows mem depth) _)
      (setstrWith_cached (rehashAndSet_cached mem depth) notName)
  | clear slot => exact noting.clear slot
  | removeentry i empty => exact noting.removeentry empty

/-! ## Lookups -/

theorem toNat_injective {e e' : TMS} (same : e.toNat = e'.toNat) : e = e' := by
  cases e <;> cases e' <;> first | rfl | cases same

theorem mask_testBit {e e' : TMS} (other : e' ≠ e) : e.mask.toNat.testBit e'.toNat = false := by
  have different : e.toNat ≠ e'.toNat := fun same => other (toNat_injective same).symm
  rw [TMS.mask, UInt8.toNat_ofNat', Nat.testBit_mod_two_pow, Nat.one_shiftLeft, Nat.testBit_two_pow]
  simp [different]

/-- A lookup notes what it has not found. -/
theorem Noting.gettm (noting : Noting mp tmname t) (e : TMS) : Noting mp tmname (gettm mp tmname t e).2 := by
  unfold Gafq.gettm
  by_cases isNil : t.tagMethod mp tmname e = .nil
  · simp only [isNil, TValue.isNil, if_true]
    refine ⟨noting.chained.setFlags _, noting.cached.unused, fun e' noted i isName => ?_⟩
    by_cases same : e' = e
    · -- the search would have found the node
      subst same
      by_contra used
      have isKey : t.keys i = .string (tmname e') := isName
      have held : t.keys i ≠ .nil := by
        rw [isKey]
        rintro ⟨⟩
      have outside : ¬ t.InArray (.string (tmname e')) := by simp [InArray, arrayindex]
      have found : t.getSlot mp (.string (tmname e')) = .node i := by
        rw [getSlot_eq t (show TValue.string (tmname e') ≠ .nil by rintro ⟨⟩), if_neg outside]
        exact noting.chained.search_node held rfl (by rw [isKey]; simp [rawequalObj])
      have isVal : t.tagMethod mp tmname e' = (t.node i).val := congrArg t.read found
      exact used (isVal.symm.trans isNil)
    · have before : t.noted e' = true := by
        simpa [Table.noted, UInt8.toNat_or, Nat.testBit_or, mask_testBit same] using noted
      exact noting.cached.absent e' before i isName
  · rw [if_neg (mt TValue.isNil_iff.1 isNil)]
    exact noting

/-- The store of `gafqV_settable`, after which nothing is noted. -/
theorem Noting.storeUnnoted (noting : Noting mp tmname t) {slot : Slot} (storable : t.Storable slot) (v : TValue N) :
    Noting mp tmname { t.write slot v with flags := 0 } := by
  have ready : StoreReady tmname slot { t with flags := 0 } :=
    ⟨noting.cached.setFlags, fun i isSlot => ⟨(storable i isSlot).1, .inl rfl⟩⟩
  have written : ({ t.write slot v with flags := 0 } : Table N) = { t with flags := 0 }.write slot v := by
    cases slot <;> rfl
  refine ⟨(noting.chained.write storable v).setFlags 0, ?_⟩
  rw [written]
  exact ready.write v

end Table

/-! ## All tables -/

namespace Metatables

variable {mp : MainPosition N} {tmname : TMS → Nat} {g g' : Metatables N}

/-- All tables are right. -/
def Noting (mp : MainPosition N) (tmname : TMS → Nat) (g : Metatables N) : Prop := ∀ a, Table.Noting mp tmname (g.table a)

theorem Noting.setTable (noting : Noting mp tmname g) {a : Nat} {t : Table N} (notingT : Table.Noting mp tmname t) :
    Noting mp tmname (g.setTable a t) := by
  intro b
  by_cases same : b = a
  · subst same
    simpa [Metatables.setTable] using notingT
  · simpa [Metatables.setTable, same] using noting b

theorem Noting.fasttm (noting : Noting mp tmname g) (et : Option Nat) (e : TMS) :
    Noting mp tmname (fasttm mp tmname et e g).2 := by
  cases et with
  | none => exact noting
  | some a =>
    by_cases noted : (g.table a).noted e = true
    · simp only [Gafq.fasttm, noted, if_true]
      exact noting
    · simp only [Gafq.fasttm, noted, if_false, Bool.false_eq_true]
      exact noting.setTable ((noting a).gettm e)

/-- A lookup leaves the entries of all tables as they are. -/
theorem fasttm_keys (et : Option Nat) (e : TMS) (a : Nat) :
    ((fasttm mp tmname et e g).2.table a).keys = (g.table a).keys := by
  cases et with
  | none => rfl
  | some b =>
    by_cases noted : (g.table b).noted e = true
    · simp only [Gafq.fasttm, noted, if_true]
    · simp only [Gafq.fasttm, noted, if_false, Bool.false_eq_true, Gafq.gettm, Metatables.setTable]
      by_cases same : a = b
      · subst same
        rw [Function.update_self]
        split <;> rfl
      · rw [Function.update_of_ne same]

theorem Noting.gettableLoop (left : Nat) : ∀ (t key : TValue N) {g : Metatables N}, Noting mp tmname g →
    Noting mp tmname (gettableLoop mp tmname left t key g).2 := by
  induction left with
  | zero => exact fun _ _ _ noting => noting
  | succ left inductionHypothesis =>
    intro t key g noting
    -- the next iteration, if there is one
    have next : ∀ (tm : TValue N) {g : Metatables N}, Noting mp tmname g →
        Noting mp tmname (if tm.isFunction then (.call tm [t, key], g) else
          Gafq.gettableLoop mp tmname left tm key g : Access N × Metatables N).2 := by
      intro tm g noting
      split
      · exact noting
      · exact inductionHypothesis tm key noting
    simp only [Gafq.gettableLoop]
    split
    · next a =>
      split
      · exact noting
      · have looked := noting.fasttm (g.metatable a) .index
        split
        · next g' missing =>
          rw [missing] at looked
          exact looked
        · next tm g' found =>
          rw [found] at looked
          exact next tm looked
    · split
      · exact noting
      · exact next _ noting

/-- The store comes after the lookup, which may have looked into the same table. -/
theorem Noting.settableLoop (mem : Nat → Memory) (depth left : Nat) : ∀ (t : TValue N) {key : TValue N} (val : TValue N)
    {g : Metatables N}, (∀ a, key ≠ .deadkey a) → Noting mp tmname g →
    Noting mp tmname (settableLoop mp tmname depth mem left t key val g).2 := by
  induction left with
  | zero => exact fun _ _ _ _ _ noting => noting
  | succ left inductionHypothesis =>
    intro t key val g live noting
    have next : ∀ (tm : TValue N) {g : Metatables N}, Noting mp tmname g →
        Noting mp tmname (if tm.isFunction then (.call tm [t, key, val], g) else
          Gafq.settableLoop mp tmname depth mem left tm key val g : Access N × Metatables N).2 := by
      intro tm g noting
      split
      · exact noting
      · exact inductionHypothesis tm val live noting
    simp only [Gafq.settableLoop]
    split
    · next a =>
      have grows : Table.Grows 0 mp (Table.rehashAndSet mp (mem left) depth) :=
        Table.rehashAndSet_grows (Nat.zero_le _) _ depth
      have placed := Table.setWith_placed grows (Table.not_isDeadkey live) (g.table a) (noting a).chained
      have caches : Table.GrowsCached tmname (Table.rehashAndSet mp (mem left) depth) :=
        Table.rehashAndSet_cached _ depth
      have ready := @Table.setWith_cached _ _ mp tmname _ caches key (g.table a) (noting a).cached
      split
      · next e h failed =>
        rw [failed] at placed ready
        exact noting.setTable ⟨placed, ready⟩
      · next oldval h inserted =>
        rw [inserted] at placed ready
        obtain ⟨chained, storable⟩ := placed
        have noting' : Noting mp tmname (g.setTable a h) := noting.setTable ⟨chained, ready.1⟩
        have atA : (g.setTable a h).table a = h := Function.update_self ..
        have store : ∀ {g' : Metatables N}, Noting mp tmname g' → (g'.table a).keys = h.keys →
            Noting mp tmname (g'.setTable a { (g'.table a).write oldval val with flags := 0 }) := by
          intro g' noting' sameKeys
          have storable' : (g'.table a).Storable oldval := by
            intro i isSlot
            rw [sameKeys]
            exact storable i isSlot
          exact noting'.setTable ((noting' a).storeUnnoted storable' val)
        split
        · exact store noting' (congrArg Table.keys atA)
        · have looked := noting'.fasttm ((g.setTable a h).metatable a) .newindex
          have sameKeys := @fasttm_keys _ _ mp tmname (g.setTable a h) ((g.setTable a h).metatable a) .newindex a
          split
          · next g' missing =>
            rw [missing] at looked sameKeys
            exact store looked (sameKeys.trans (congrArg Table.keys atA))
          · next tm g' found =>
            rw [found] at looked
            exact next tm looked
    · split
      · exact noting
      · exact next _ noting

theorem Noting.step (noting : Noting mp tmname g) (step : MetatableStep mp tmname g g') : Noting mp tmname g' := by
  cases step with
  | new a inInt created =>
    have notingT : Table.Noting mp tmname _ := ⟨Table.new_chained _ _ inInt created, Table.new_cached created⟩
    exact noting.setTable notingT
  | setmetatable metatable udata mt => exact noting
  | settable mem depth t val live => exact noting.settableLoop mem depth maxTagLoop t val live
  | gettable t key => exact noting.gettableLoop maxTagLoop t key
  | fasttm et e => exact noting.fasttm et e
  | table a step => exact noting.setTable ((noting a).step step)

theorem initial_noting : Noting mp tmname (initial : Metatables N) := fun _ =>
  ⟨Table.EmptyNodes.chained ⟨rfl, rfl, fun _ => rfl⟩ (show InInt (0 + 0 : Nat) by decide) (Nat.zero_le _) mp,
    Table.empty_cached⟩

/-- In every run, a noted tag method is one that the table does not have, and `fasttm` finds what a lookup without
notes finds. -/
theorem noted_absent (reached : MetatablesReached mp tmname g) (a : Nat) (e : TMS) :
    ((g.table a).noted e = true → (g.table a).read ((g.table a).getSlot mp (.string (tmname e))) = .nil) ∧
      (Gafq.fasttm mp tmname (some a) e g).1 =
        if ((g.table a).tagMethod mp tmname e).isNil then none else some ((g.table a).tagMethod mp tmname e) := by
  have noting : Noting mp tmname g := by
    induction reached with
    | refl => exact initial_noting
    | tail _ step inductionHypothesis => exact inductionHypothesis.step step
  have absent : (g.table a).noted e = true → (g.table a).tagMethod mp tmname e = .nil := by
    intro noted
    cases found : (g.table a).getstr mp (tmname e) with
    | array i =>
      -- names are not in the array part
      unfold Table.getstr Table.search at found
      split at found <;> cases found
    | nilobject =>
      rw [Table.tagMethod, found]
      rfl
    | node i =>
      have isString : TValue.isString (tmname e) ((g.table a).keys i) = true := Table.search_test found
      have isName : (g.table a).keys i = .string (tmname e) := by
        cases same : (g.table a).keys i <;> simp_all [TValue.isString]
      rw [Table.tagMethod, found]
      exact (noting a).cached.absent e noted i isName
  refine ⟨absent, ?_⟩
  by_cases noted : (g.table a).noted e = true
  · simp only [Gafq.fasttm, noted, if_true, absent noted, TValue.isNil]
  · simp only [Gafq.fasttm, noted, if_false, Bool.false_eq_true, gettm]
    split <;> rfl

/-- A table that is its own metatable notes that it does not have `__newindex`, and then `__newindex` is stored. -/
def ownMetatable : Metatables Int :=
  let created : Metatables Int := { initial with metatable := Function.update (fun _ => none) 0 (some 0) }
  let noted := (Gafq.fasttm intPosition TMS.toNat (some 0) .newindex created).2
  (settable intPosition TMS.toNat 1 (fun _ => {}) (.object .table 0) (.string TMS.newindex.toNat) (.boolean true) noted).2

theorem noted_absent_ownMetatable : (Gafq.fasttm intPosition TMS.toNat (some 0) .newindex ownMetatable).1 =
    some (.boolean true) := by
  have reached : MetatablesReached intPosition TMS.toNat ownMetatable :=
    ((Relation.ReflTransGen.refl.tail (.setmetatable (Function.update (fun _ => none) 0 (some 0)) _ _)).tail
      (.fasttm (some 0) .newindex)).tail (.settable (fun _ => {}) 1 _ _ nofun)
  exact (noted_absent reached 0 .newindex).2

end Metatables

end Gafq
