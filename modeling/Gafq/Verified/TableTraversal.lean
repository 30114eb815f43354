import Gafq.Verified.TableChains
import Gafq.Mark

/-! # Traversals

A traversal feeds every key that `gafqH_next` returns back to it, while the program assigns to
fields that exist and the collector empties entries and marks their keys dead.  It visits the
entries in the order of their positions as long as the position of a key can be recovered.  Two
things stand in the way: a key in a node that belongs to the array part, as a failed `resize` leaves
it behind, and a dead key with the address of the object that is searched.
-/

namespace Gafq

open Base

variable {N : Type} [GafqNumber N]

namespace Table

variable {mp : MainPosition N} {t t' t'' : Table N} {key : TValue N}

/-! ## Traversals and what may happen in between -/

/-- What may happen to a table between two calls of `gafqH_next`. -/
inductive Change (mp : MainPosition N) (t : Table N) : Table N → Prop
  | assign {mem : Memory} {op : TableOp N} {slot : Slot} {t' : Table N} (existing : t.value mp op.key ≠ .nil)
      (found : op.insertion mp mem t = .ok slot t') : Change mp t (t'.write slot op.stored)
  /-- the collector clears an entry of a weak table -/
  | clear (slot : Slot) : Change mp t (t.write slot .nil)
  | removeentry (i : Nat) (empty : (t.node i).val = .nil) : Change mp t (t.removeentry i)

end Table

/-- A traversal on its way: the last key, the keys that have been returned, last one first, and what
the table was before each change. -/
structure Traversal (N : Type) where
  table : Table N
  key : TValue N := .nil
  returned : List (TValue N) := []
  earlier : List (Table N) := []

namespace Table

/-- The traversals of a table. -/
inductive Traversing (mp : MainPosition N) (t : Table N) : Traversal N → Prop
  | start : Traversing mp t { table := t }
  | change {p : Traversal N} {t' : Table N} (on : Traversing mp t p) (change : Change mp p.table t') :
      Traversing mp t { p with table := t', earlier := p.table :: p.earlier }
  | next {p : Traversal N} {k v : TValue N} (on : Traversing mp t p) (found : p.table.nextEntry mp p.key = .ok (some (k, v))) :
      Traversing mp t { p with key := k, returned := k :: p.returned }

/-- Every traversal of the table is right. -/
structure Traverses (mp : MainPosition N) (t : Table N) : Prop where
  finite : ∃ bound, ∀ p, Traversing mp t p → p.returned.length ≤ bound
  valid : ∀ p, Traversing mp t p → p.table.nextEntry mp p.key ≠ .error .invalidKey
  once : ∀ p, Traversing mp t p → p.returned.Pairwise fun k k' => rawequalObj k k' = false
  complete : ∀ p, Traversing mp t p → p.table.nextEntry mp p.key = .ok none →
    ∀ key, (∀ t' ∈ p.table :: p.earlier, t'.value mp key ≠ .nil) → ∃ k ∈ p.returned, rawequalObj k key = true

/-- The search for the key of node `i` may end at node `j`, where the key is dead or may become so. -/
structure Shadows (mp : MainPosition N) (t : Table N) (i j : Nat) (a : Nat) : Prop where
  other : j ≠ i
  searched : (t.keys i).gcaddress = some a
  found : (t.keys j).gcaddress = some a
  onChain : Reaches t.next (mp.pos t.lsizenode (t.keys i)) j
  before : Reaches t.next j i
  /-- no other dead key stops the search before -/
  first : ∀ d, t.keys d = .deadkey a → Reaches t.next (mp.pos t.lsizenode (t.keys i)) d → Reaches t.next d j → d = j

/-- The positions of keys in use can be recovered, or at least no entry is missed or met again. -/
structure Undisturbed (mp : MainPosition N) (t : Table N) : Prop where
  apart : ∀ i, (t.node i).val ≠ .nil → ¬ t.InArray (t.keys i)
  unshadowed : ∀ i j a, (t.node i).val ≠ .nil → Shadows mp t i j a →
    i < j ∧ ∀ k, i < k → k < j → (t.node k).val = .nil

variable {mp : MainPosition N} {t t' t'' : Table N} {key : TValue N}

/-! ## Positions -/

/-- The value at a position of the numbering. -/
def valueAt (t : Table N) (q : Nat) : TValue N :=
  if q < t.sizearray then t.array q else (t.node (q - t.sizearray)).val

def keyAt (t : Table N) (q : Nat) : TValue N :=
  if q < t.sizearray then .number (castNum ((q : Int) + 1)) else t.keys (q - t.sizearray)

/-- Behind the position of its argument, `gafqH_next` finds the first entry in use. -/
theorem nextEntry_spec {i : Int} (found : t.findindex mp key = .ok i) (low : -1 ≤ i) :
    (∃ q : Nat, i < q ∧ q < t.sizearray + t.sizenode ∧ t.valueAt q ≠ .nil ∧
      (∀ q' : Nat, i < q' → q' < q → t.valueAt q' = .nil) ∧
      t.nextEntry mp key = .ok (some (t.keyAt q, t.valueAt q))) ∨
    (∀ q : Nat, i < q → q < t.sizearray + t.sizenode → t.valueAt q = .nil) ∧ t.nextEntry mp key = .ok none := by
  have inArray : ∀ {q : Nat}, q < t.sizearray → t.valueAt q = t.array q := fun inside => if_pos inside
  have inNode : ∀ {q : Nat}, t.sizearray ≤ q → t.valueAt q = (t.node (q - t.sizearray)).val :=
    fun outside => if_neg (by omega)
  cases first : t.nextArray (i + 1).toNat with
  | some j =>
    have started : t.nextEntry mp key = .ok (some (.number (castNum ((j : Int) + 1)), t.array j)) := by
      simp only [nextEntry, found, bind, Except.bind, first]
      rfl
    obtain ⟨used, member, before⟩ := List.find?_range'_eq_some.1 first
    rw [List.mem_range'_1] at member
    refine .inl ⟨j, by omega, by omega, ?_, ?_, ?_⟩
    · rw [inArray (by omega)]
      simpa using used
    · intro q' above below
      rw [inArray (by omega)]
      simpa using before q' (by omega) below
    · rw [started, inArray (by omega), keyAt, if_pos (by omega)]
  | none =>
    have arrayEmpty : ∀ q : Nat, i < q → q < t.sizearray → t.valueAt q = .nil := by
      intro q above inside
      rw [inArray inside]
      simpa using List.find?_range'_eq_none.1 first q (by omega) (by omega)
    cases second : t.nextNode ((i + 1).toNat - t.sizearray) with
    | some j =>
      have started : t.nextEntry mp key = .ok (some ((t.node j).key, (t.node j).val)) := by
        simp only [nextEntry, found, bind, Except.bind, first, second]
        rfl
      obtain ⟨used, member, before⟩ := List.find?_range'_eq_some.1 second
      rw [List.mem_range'_1] at member
      refine .inl ⟨t.sizearray + j, by omega, by omega, ?_, ?_, ?_⟩
      · rw [inNode (by omega), Nat.add_sub_cancel_left]
        simpa using used
      · intro q' above below
        by_cases inside : q' < t.sizearray
        · exact arrayEmpty q' above inside
        · rw [inNode (by omega)]
          simpa using before (q' - t.sizearray) (by omega) (by omega)
      · rw [started, inNode (by omega), keyAt, if_neg (by omega), Nat.add_sub_cancel_left]
        rfl
    | none =>
      have started : t.nextEntry mp key = .ok none := by
        simp only [nextEntry, found, bind, Except.bind, first, second]
        rfl
      refine .inr ⟨fun q above inside => ?_, started⟩
      by_cases low : q < t.sizearray
      · exact arrayEmpty q above low
      · rw [inNode (by omega)]
        simpa using List.find?_range'_eq_none.1 second (q - t.sizearray) (by omega) (by omega)

/-! ## What changes keep -/

/-- `t'` is `t` after changes: entries in use were only emptied, and keys of empty entries only
marked dead. -/
structure Later (t t' : Table N) : Prop where
  sizearray : t'.sizearray = t.sizearray
  lsizenode : t'.lsizenode = t.lsizenode
  next : t'.next = t.next
  keys : ∀ i, t'.keys i = t.keys i ∨ t'.keys i = deadkey (t.keys i) ∧ (t'.node i).val = .nil
  array : ∀ i, t.array i = .nil → t'.array i = .nil
  node : ∀ i, (t.node i).val = .nil → (t'.node i).val = .nil

omit [GafqNumber N] in
theorem Later.refl (t : Table N) : Later t t :=
  ⟨rfl, rfl, rfl, fun _ => .inl rfl, fun _ => id, fun _ => id⟩

omit [GafqNumber N] in
theorem deadkey_deadkey (key : TValue N) : deadkey (deadkey key) = deadkey key := by
  cases key <;> rfl

omit [GafqNumber N] in
theorem deadkey_of_live (live : (deadkey key).isDeadkey = false) : deadkey key = key := by
  cases key <;> first | rfl | cases live

omit [GafqNumber N] in
theorem Later.trans (first : Later t t') (second : Later t' t'') : Later t t'' where
  sizearray := second.sizearray.trans first.sizearray
  lsizenode := second.lsizenode.trans first.lsizenode
  next := second.next.trans first.next
  keys i := by
    obtain same | ⟨dead, empty⟩ := second.keys i
    · obtain same' | ⟨dead, empty⟩ := first.keys i
      · exact .inl (same.trans same')
      · exact .inr ⟨same.trans dead, second.node i empty⟩
    · obtain same' | ⟨dead', -⟩ := first.keys i
      · exact .inr ⟨by rw [dead, same'], empty⟩
      · exact .inr ⟨by rw [dead, dead', deadkey_deadkey], empty⟩
  array i empty := second.array i (first.array i empty)
  node i empty := second.node i (first.node i empty)

omit [GafqNumber N] in
theorem Later.sizenode (later : Later t t') : t'.sizenode = t.sizenode := by
  rw [Table.sizenode, Table.sizenode, later.lsizenode]

omit [GafqNumber N] in
theorem Later.valueAt (later : Later t t') {q : Nat} (empty : t.valueAt q = .nil) : t'.valueAt q = .nil := by
  unfold Table.valueAt at empty ⊢
  rw [later.sizearray]
  split
  · rename_i inside
    rw [if_pos inside] at empty
    exact later.array q empty
  · rename_i outside
    rw [if_neg outside] at empty
    exact later.node _ empty

omit [GafqNumber N] in
/-- A store into a slot that is in use. -/
theorem Later.write {slot : Slot} (v : TValue N) (inUse : t.read slot ≠ .nil ∨ v = .nil) : Later t (t.write slot v) where
  sizearray := write_sizearray t slot v
  lsizenode := write_lsizenode t slot v
  next := write_next t slot v
  keys i := .inl (congrFun (write_keys t slot v) i)
  array i empty := by
    cases slot with
    | node | nilobject => exact empty
    | array j =>
      simp only [Table.write, Function.update_apply]
      split
      · rename_i same
        exact inUse.resolve_left fun used => used (same ▸ empty)
      · exact empty
  node i empty := by
    cases slot with
    | array | nilobject => exact empty
    | node j =>
      simp only [Table.write, Function.update_apply]
      split
      · rename_i same
        exact inUse.resolve_left fun used => used (same ▸ empty)
      · exact empty

/-- A set function returns the slot of a key that is there. -/
theorem insertion_found {mem : Memory} {op : TableOp N} (found : t.getSlot mp op.key ≠ .nilobject) :
    ∃ flags, op.insertion mp mem t = .ok (t.getSlot mp op.key) { t with flags } := by
  cases op with
  | set key v =>
    simp only [TableOp.key] at found ⊢
    exact ⟨0, by simp only [TableOp.insertion, setSlot, setWith, ne_eq, found, not_false_eq_true, if_true]⟩
  | setnum k v =>
    simp only [TableOp.key] at found ⊢
    refine ⟨t.flags, ?_⟩
    simp only [TableOp.insertion, setnum, setnumWith, getnum_castNum t k.2, ne_eq, found, not_false_eq_true, if_true]
  | setstr s v =>
    refine ⟨t.flags, ?_⟩
    exact if_pos found

theorem Change.later (change : Change mp t t') : Later t t' := by
  cases change with
  | clear slot => exact .write .nil (.inr rfl)
  | removeentry i empty =>
    refine ⟨rfl, rfl, t.removeentry_next i, fun j => ?_, fun _ => id, fun j empty => ?_⟩
    · rw [removeentry_keys, Function.update_apply]
      split
      · rename_i here
        rw [here, removeentry_val]
        exact .inr ⟨rfl, empty⟩
      · exact .inl rfl
    · rwa [removeentry_val]
  | assign existing found =>
    rename_i mem op slot t₁
    have inUse : t.read (t.getSlot mp op.key) ≠ .nil := existing
    have isFound : t.getSlot mp op.key ≠ .nilobject := by
      intro missing
      rw [missing] at inUse
      exact inUse rfl
    obtain ⟨flags, same⟩ := @insertion_found _ _ mp t mem op isFound
    rw [same] at found
    cases found
    have setFlags : Later t { t with flags } := ⟨rfl, rfl, rfl, fun _ => .inl rfl, fun _ => id, fun _ => id⟩
    exact setFlags.trans (.write _ (.inl inUse))

/-- What `traversetable` does to the empty entries of a table is a series of changes. -/
theorem Chained.removeentries_changes (chained : Chained mp t) :
    Relation.ReflTransGen (Change mp) t (GC.removeentries t) := by
  let below (n : Nat) : Table N :=
    { t with node := fun i => if i < n ∧ (t.node i).val.isNil then { t.node i with key := deadkey (t.node i).key } else t.node i }
  have changes : ∀ n, Relation.ReflTransGen (Change mp) t (below n) := by
    intro n
    induction n with
    | zero =>
      have same : below 0 = t := by simp [below]
      rw [same]
    | succ n inductionHypothesis =>
      by_cases empty : (t.node n).val.isNil = true
      · have same : below (n + 1) = (below n).removeentry n := by
          simp only [below, Table.removeentry, Table.mk.injEq, true_and, and_true]
          funext i
          by_cases here : i = n
          · simp [here, empty]
          · rw [Function.update_of_ne here]
            simp only [show i < n + 1 ↔ i < n by omega]
        rw [same]
        exact inductionHypothesis.tail (.removeentry n (by simpa [below] using empty))
      · have same : below (n + 1) = below n := by
          simp only [below, Table.mk.injEq, true_and, and_true]
          funext i
          by_cases here : i = n
          · simp [here, empty]
          · simp only [show i < n + 1 ↔ i < n by omega]
        rw [same]
        exact inductionHypothesis
  have all : GC.removeentries t = below t.sizenode := by
    simp only [GC.removeentries, below, Table.mk.injEq, true_and, and_true]
    funext i
    by_cases inside : i < t.sizenode
    · by_cases empty : (t.node i).val.isNil = true
      · rw [if_pos empty, if_pos ⟨inside, empty⟩]
      · rw [if_neg empty, if_neg fun both => empty both.2]
    · obtain ⟨home, scatter⟩ := chained.chains
      have free : (t.node i).key = .nil := by
        have outside := scatter.outside (Nat.not_lt.1 inside)
        by_contra used
        exact labels_ne_nil.2 used outside
      simp only [inside, false_and, if_false, free, deadkey]
      split
      · rw [← free]
      · rfl
  rw [all]
  exact changes t.sizenode

/-! ## The search for a key that was in use -/

/-- The search for the key of a node ends there, or before at a dead key with the same address. -/
theorem Chained.search_later (chained : Chained mp t) (later : Later t t') {i : Nat} (used : (t.node i).val ≠ .nil) :
    ∃ j, t'.search (fun k => rawequalObj k (t.keys i) || k.isDeadkeyOf (t.keys i)) (mp.pos t.lsizenode (t.keys i)) = .node j ∧
      Reaches t.next (mp.pos t.lsizenode (t.keys i)) j ∧ Reaches t.next j i ∧
      (j = i ∨ ∃ a, t'.keys j = .deadkey a ∧ (t.keys i).gcaddress = some a) ∧
      ∀ d a, t'.keys d = .deadkey a → (t.keys i).gcaddress = some a →
        Reaches t.next (mp.pos t.lsizenode (t.keys i)) d → Reaches t.next j d := by
  obtain ⟨home, scatter⟩ := chained.chains
  have notNil : t.keys i ≠ .nil := fun free => used (chained.unused (.inl free))
  have live : (t.keys i).isDeadkey = false := by
    by_contra dead
    exact used (chained.unused (.inr (by simpa using dead)))
  have self := (chained.isKey notNil).self
  have label := @labels_live _ t home i live
  have reached : Reaches t.next (mp.pos t.lsizenode (t.keys i)) i := by
    have := scatter.reached (labels_ne_nil.2 notNil)
    rwa [label] at this
  obtain ⟨path, chain, walked⟩ := scatter.walk_eq (mp.pos_lt t.lsizenode (t.keys i))
    fun j => rawequalObj (t'.keys j) (t.keys i) || (t'.keys j).isDeadkeyOf (t.keys i)
  have member : i ∈ path := chain.mem_iff_reaches.2 reached
  have passes : (rawequalObj (t'.keys i) (t.keys i) || (t'.keys i).isDeadkeyOf (t.keys i)) = true := by
    obtain same | ⟨dead, -⟩ := later.keys i
    · rw [same, self, Bool.true_or]
    · rw [dead]
      cases key : t.keys i <;> rw [key] at self <;> simp_all [deadkey, TValue.isDeadkeyOf, TValue.gcaddress]
  cases first : path.find? fun j => rawequalObj (t'.keys j) (t.keys i) || (t'.keys j).isDeadkeyOf (t.keys i) with
  | none => exact absurd passes (by simpa using List.find?_eq_none.1 first i member)
  | some j =>
    have passesJ := List.find?_some first
    refine ⟨j, ?_, chain.mem_iff_reaches.1 (List.mem_of_find?_eq_some first), chain.find_reaches first member passes, ?_, ?_⟩
    · unfold search sizenode
      rw [later.next, later.lsizenode]
      rw [first] at walked
      rw [show walk t.next (fun j => rawequalObj (t'.node j).key (t.keys i) || (t'.node j).key.isDeadkeyOf (t.keys i))
        (2 ^ t.lsizenode) (mp.pos t.lsizenode (t.keys i)) = some j from walked]
    · cases key : t'.keys j with
      | deadkey a =>
        simp only [key, Bool.or_eq_true] at passesJ
        obtain equal | dead := passesJ
        · cases other : t.keys i <;> rw [other] at equal live <;> first | cases equal | cases live
        · exact .inr ⟨a, rfl, by simpa [TValue.isDeadkeyOf] using dead⟩
      | nil | boolean | lightuserdata | number | string | object =>
        -- the key is alive, so it is the one that is searched
        left
        have same : t.keys j = t'.keys j := by
          obtain same | ⟨dead, -⟩ := later.keys j
          · exact same.symm
          · rw [dead, deadkey_of_live (by rw [← dead, key]; rfl)]
        have liveJ : (t.keys j).isDeadkey = false := by
          rw [same, key]
          rfl
        have equal : rawequalObj (t.keys j) (t.keys i) = true := by
          rw [same]
          simpa [key, TValue.isDeadkeyOf] using passesJ
        have usedJ : t.keys j ≠ .nil := ((chained.isKey notNil).of_rawequal equal).ne_nil
        apply scatter.distinct (labels_ne_nil.2 usedJ) (labels_ne_nil.2 notNil)
        rw [label, labels_live liveJ]
        exact equal
    · intro d a dead searched onChain
      apply chain.find_reaches first (chain.mem_iff_reaches.2 onChain)
      rw [dead]
      simp [TValue.isDeadkeyOf, searched]

theorem Chained.not_isDeadkey (chained : Chained mp t) {i : Nat} (used : (t.node i).val ≠ .nil) :
    t.keys i ≠ .nil ∧ (t.keys i).isDeadkey = false := by
  constructor
  · exact fun free => used (chained.unused (.inl free))
  · by_contra dead
    exact used (chained.unused (.inr (by simpa using dead)))

/-- A key of the array part gives its index. -/
theorem Later.findindex_array (later : Later t t') {q : Nat} (inside : q < t.sizearray) (inInt : InInt ((q : Int) + 1)) :
    t'.findindex mp (.number (castNum ((q : Int) + 1))) = .ok (q : Int) := by
  unfold findindex
  have index := @arrayindex_castNum N _ _ inInt
  simp only [TValue.isNil, index, later.sizearray]
  rw [if_neg (by simp), if_pos (by omega)]
  have number : (q : Int) + 1 - 1 = q := by omega
  rw [number]

theorem findindex_of_not_inArray (notNil : key ≠ .nil) (outside : ¬ t.InArray key) : t.findindex mp key =
    match t.search (fun k => rawequalObj k key || k.isDeadkeyOf key) (mp.pos t.lsizenode key) with
    | .node n => .ok (n + t.sizearray)
    | _ => .error .invalidKey := by
  unfold findindex
  have isNil : key.isNil = false := by simpa using notNil
  have range : ¬ (0 < arrayindex key ∧ arrayindex key ≤ t.sizearray) := outside
  exact (if_neg (by simp [isNil])).trans (if_neg range)

/-- The index of a key is of type `int`. -/
theorem Chained.findindex_inInt (chained : Chained mp t) {i : Int} (found : t.findindex mp key = .ok i) : InInt i := by
  unfold findindex at found
  split at found
  · cases found
    decide
  · split at found
    · rename_i range
      cases found
      have := arrayindex_inInt key
      unfold InInt at this ⊢
      omega
    · split at found
      · rename_i n searched
        cases found
        obtain ⟨home, scatter⟩ := chained.chains
        have start : mp.pos t.lsizenode key < (t.labelling mp).size := mp.pos_lt t.lsizenode key
        obtain ⟨path, chain, walked⟩ :=
          scatter.walk_eq start fun i => rawequalObj (t.node i).key key || (t.node i).key.isDeadkeyOf key
        unfold search at searched
        rw [show t.sizenode = (t.labelling mp).size from rfl, walked] at searched
        split at searched
        · rename_i first
          cases searched
          have small : n < 2 ^ t.lsizenode := scatter.chain_inside chain start n (List.mem_of_find?_eq_some first)
          have le := Nat.pow_le_pow_right (show 0 < 2 by decide) chained.lsizenode_le
          have sum : InInt (n + t.sizearray : Nat) := InInt.of_le chained.inInt (by omega)
          exact_mod_cast sum
        · cases searched
      · cases found

theorem Later.inArray (later : Later t t') : t'.InArray key ↔ t.InArray key := by
  unfold InArray
  rw [later.sizearray]

/-- The index of a key that was in use is at its node, or at a later one with only empty entries in between. -/
theorem Undisturbed.findindex_node (undisturbed : Undisturbed mp t) (chained : Chained mp t) (later : Later t t')
    {i : Nat} (used : (t.node i).val ≠ .nil) :
    ∃ j : Nat, t'.findindex mp (t.keys i) = .ok ((j : Int) + t.sizearray) ∧ i ≤ j ∧
      ∀ k, i < k → k ≤ j → (t'.node k).val = .nil := by
  obtain ⟨j, found, onChain, before, stops, first⟩ := chained.search_later later used
  obtain ⟨notNil, -⟩ := chained.not_isDeadkey used
  have outside : ¬ t'.InArray (t.keys i) := fun inside => undisturbed.apart i used (later.inArray.1 inside)
  refine ⟨j, ?_, ?_⟩
  · rw [findindex_of_not_inArray notNil outside, later.lsizenode, found, later.sizearray]
  · obtain rfl | ⟨a, dead, searched⟩ := stops
    · exact ⟨le_refl _, fun k above below => by omega⟩
    · have empty : (t'.node j).val = .nil := by
        obtain same | ⟨-, empty⟩ := later.keys j
        · apply later.node
          apply chained.unused
          rw [← same, dead]
          exact .inr rfl
        · exact empty
      have address : (t.keys j).gcaddress = some a := by
        obtain same | ⟨same, -⟩ := later.keys j
        · rw [← same, dead]
          rfl
        · rw [dead] at same
          cases key : t.keys j <;> rw [key] at same <;> simp_all [deadkey, TValue.gcaddress]
      by_cases here : j = i
      · subst here
        exact ⟨le_refl _, fun k above below => by omega⟩
      · obtain ⟨home, scatter⟩ := chained.chains
        have shadows : Shadows mp t i j a := by
          refine ⟨here, searched, address, onChain, before, fun d deadD onChainD beforeJ => ?_⟩
          have deadD' : t'.keys d = .deadkey a := by
            obtain same | ⟨same, -⟩ := later.keys d
            · rw [same, deadD]
            · rw [same, deadD]
              rfl
          exact scatter.linked.antisymm beforeJ (first d a deadD' searched onChainD)
        obtain ⟨after, between⟩ := undisturbed.unshadowed i j a used shadows
        refine ⟨le_of_lt after, fun k above below => ?_⟩
        by_cases last : k = j
        · rw [last]
          exact empty
        · exact later.node k (between k above (by omega))

/-! ## The invariant of a traversal -/

/-- The keys returned so far are those at the positions `ps`; entries passed over have been empty. -/
structure Progress (t : Table N) (p : Traversal N) (ps : List Nat) : Prop where
  later : Later t p.table
  seen : ∀ t' ∈ p.earlier, Later t t'
  returned : p.returned = ps.map t.keyAt
  key : p.key = (ps.head?.map t.keyAt).getD .nil
  descending : ps.Pairwise (· > ·)
  inUse : ∀ q ∈ ps, q < t.sizearray + t.sizenode ∧ t.valueAt q ≠ .nil
  skipped : ∀ q' ∈ ps.head?, ∀ q < q', q ∉ ps → ∃ t' ∈ p.table :: p.earlier, t'.valueAt q = .nil

omit [GafqNumber N] in
theorem valueAt_array {q : Nat} (inside : q < t.sizearray) : t.valueAt q = t.array q := if_pos inside

omit [GafqNumber N] in
theorem valueAt_node {q : Nat} (outside : t.sizearray ≤ q) : t.valueAt q = (t.node (q - t.sizearray)).val :=
  if_neg (by omega)

theorem keyAt_array {q : Nat} (inside : q < t.sizearray) : t.keyAt q = .number (castNum ((q : Int) + 1)) := if_pos inside

theorem keyAt_node {q : Nat} (outside : t.sizearray ≤ q) : t.keyAt q = t.keys (q - t.sizearray) := if_neg (by omega)

theorem Chained.inInt_succ (chained : Chained mp t) {q : Nat} (inside : q < t.sizearray) : InInt ((q : Int) + 1) := by
  have le : q + 1 ≤ t.sizearray + 2 ^ maxBits := by
    have : 0 < 2 ^ maxBits := by decide
    omega
  exact InInt.of_le chained.inInt le

/-- The key last returned is found again where it was, up to empty entries. -/
theorem Progress.findindex (undisturbed : Undisturbed mp t) (chained : Chained mp t) {p : Traversal N} {ps : List Nat}
    (progress : Progress t p ps) :
    ∃ i : Int, p.table.findindex mp p.key = .ok i ∧ -1 ≤ i ∧ (∀ q' ∈ ps.head?, (q' : Int) ≤ i) ∧
      ∀ q : Nat, q ≤ i → (∀ q' ∈ ps.head?, q' < q) → p.table.valueAt q = .nil := by
  have key := progress.key
  cases ps with
  | nil =>
    refine ⟨-1, ?_, le_refl _, by simp, fun q low => by omega⟩
    rw [key]
    rfl
  | cons q' ps =>
    obtain ⟨inside, used⟩ := progress.inUse q' List.mem_cons_self
    simp only [List.head?_cons, Option.map_some, Option.getD_some] at key
    simp only [List.head?_cons, Option.mem_some_iff, forall_eq']
    rw [key]
    by_cases low : q' < t.sizearray
    · refine ⟨q', ?_, by omega, le_refl _, fun q below above => by omega⟩
      rw [keyAt_array low]
      exact progress.later.findindex_array low (chained.inInt_succ low)
    · rw [valueAt_node (by omega)] at used
      obtain ⟨j, found, after, between⟩ := undisturbed.findindex_node chained progress.later used
      refine ⟨(j : Int) + t.sizearray, ?_, by omega, by omega, fun q below above => ?_⟩
      · rw [keyAt_node (by omega), found]
      · rw [valueAt_node (by rw [progress.later.sizearray]; omega), progress.later.sizearray]
        exact between _ (by omega) (by omega)

theorem Later.keyAt (later : Later t t') {q : Nat} (used : t'.valueAt q ≠ .nil) :
    t'.keyAt q = t.keyAt q := by
  by_cases inside : q < t.sizearray
  · rw [keyAt_array inside, keyAt_array (later.sizearray ▸ inside)]
  · have size := later.sizearray
    rw [valueAt_node (by omega), size] at used
    rw [keyAt_node (by omega), keyAt_node (by omega), size]
    obtain same | ⟨-, empty⟩ := later.keys (q - t.sizearray)
    · exact same
    · exact absurd empty used

/-- The last position is the largest one. -/
theorem Progress.lt_of_front {p : Traversal N} {ps : List Nat} (progress : Progress t p ps) {q : Nat}
    (front : ∀ q' ∈ ps.head?, q' < q) : ∀ q' ∈ ps, q' < q := by
  have descending := progress.descending
  cases ps with
  | nil => simp
  | cons q₁ ps =>
    have first := front q₁ rfl
    intro q' member
    obtain rfl | member := List.mem_cons.1 member
    · exact first
    · exact (List.rel_of_pairwise_cons descending member).trans first

theorem Traversing.progress (undisturbed : Undisturbed mp t) (chained : Chained mp t) {p : Traversal N}
    (traversing : Traversing mp t p) : ∃ ps, Progress t p ps := by
  induction traversing with
  | start => exact ⟨[], .refl t, by simp, rfl, rfl, .nil, by simp, by simp⟩
  | change on change inductionHypothesis =>
    obtain ⟨ps, progress⟩ := inductionHypothesis
    refine ⟨ps, progress.later.trans change.later, ?_, progress.returned, progress.key, progress.descending,
      progress.inUse, fun q' first q below other => ?_⟩
    · intro t' member
      obtain rfl | member := List.mem_cons.1 member
      · exact progress.later
      · exact progress.seen t' member
    · obtain ⟨t', member, empty⟩ := progress.skipped q' first q below other
      exact ⟨t', List.mem_cons_of_mem _ member, empty⟩
  | next on found inductionHypothesis =>
    rename_i p k v
    obtain ⟨ps, progress⟩ := inductionHypothesis
    obtain ⟨i, index, low, passed, emptied⟩ := progress.findindex undisturbed chained
    obtain ⟨q, above, inside, used, skipped, result⟩ | ⟨-, result⟩ := nextEntry_spec index low
    · rw [result] at found
      cases found
      have sizes := progress.later.sizearray
      have usedT : t.valueAt q ≠ .nil := mt progress.later.valueAt used
      have sameKey := progress.later.keyAt used
      have larger := progress.lt_of_front fun q' first => (by have := passed q' first; omega : q' < q)
      refine ⟨q :: ps, progress.later, progress.seen, ?_, ?_, ?_, ?_, ?_⟩
      · simp only [List.map_cons, sameKey, progress.returned]
      · simp [sameKey]
      · exact List.pairwise_cons.2 ⟨larger, progress.descending⟩
      · intro q' member
        obtain rfl | member := List.mem_cons.1 member
        · exact ⟨by rw [← sizes, ← progress.later.sizenode]; exact inside, usedT⟩
        · exact progress.inUse q' member
      · intro q' first q'' below other
        simp only [List.head?_cons, Option.mem_some_iff] at first
        subst first
        rw [List.mem_cons, not_or] at other
        by_cases beyond : i < q''
        · exact ⟨p.table, List.mem_cons_self, skipped q'' beyond below⟩
        · by_cases front : ∀ q' ∈ ps.head?, q' < q''
          · exact ⟨p.table, List.mem_cons_self, emptied q'' (by omega) front⟩
          · push Not at front
            obtain ⟨q', first, le⟩ := front
            have different : q'' ≠ q' := fun same => other.2 (same ▸ List.mem_of_mem_head? first)
            exact progress.skipped q' first q'' (by omega) other.2
    · rw [result] at found
      cases found

/-! ## Undisturbed tables are traversed -/

/-- Entries in use have different keys. -/
theorem Undisturbed.keyAt_injective (undisturbed : Undisturbed mp t) (chained : Chained mp t) {q q' : Nat}
    (used : t.valueAt q ≠ .nil) (used' : t.valueAt q' ≠ .nil) (equal : rawequalObj (t.keyAt q) (t.keyAt q') = true) :
    q = q' := by
  have apart : ∀ {q i : Nat}, q < t.sizearray → t.sizearray ≤ i → t.valueAt i ≠ .nil →
      rawequalObj (t.keyAt q) (t.keyAt i) = true → False := by
    intro q i inside outside used equal
    rw [keyAt_array inside, keyAt_node outside] at equal
    rw [valueAt_node outside] at used
    have index := arrayindex_of_rawequal (chained.inInt_succ inside) equal
    exact undisturbed.apart _ used ⟨by omega, by omega⟩
  by_cases inside : q < t.sizearray
  · by_cases inside' : q' < t.sizearray
    · rw [keyAt_array inside, keyAt_array inside'] at equal
      have index := arrayindex_of_rawequal (chained.inInt_succ inside) equal
      rw [arrayindex_castNum (chained.inInt_succ inside')] at index
      omega
    · exact (apart inside (by omega) used' equal).elim
  · by_cases inside' : q' < t.sizearray
    · exact (apart inside' (by omega) used (rawequalObj_symm equal)).elim
    · rw [keyAt_node (by omega), keyAt_node (by omega)] at equal
      rw [valueAt_node (by omega)] at used used'
      obtain ⟨home, scatter⟩ := chained.chains
      obtain ⟨notNil, live⟩ := chained.not_isDeadkey used
      obtain ⟨notNil', live'⟩ := chained.not_isDeadkey used'
      have same := scatter.distinct (labels_ne_nil.2 notNil) (labels_ne_nil.2 notNil')
        (by rw [labels_live live, labels_live live']; exact equal)
      omega

/-- The position of a key that has a value. -/
theorem Later.position (later : Later t t') (chained : Chained mp t) (found : t'.value mp key ≠ .nil) :
    ∃ q, q < t.sizearray + t.sizenode ∧ t'.valueAt q ≠ .nil ∧ rawequalObj (t.keyAt q) key = true := by
  have notNil : key ≠ .nil := by
    rintro rfl
    exact found rfl
  have size := later.sizearray
  by_cases inside : t'.InArray key
  · rw [value_of_inArray inside] at found
    obtain ⟨low, high⟩ := inside
    refine ⟨(arrayindex key - 1).toNat, by omega, ?_, ?_⟩
    · rwa [valueAt_array (by omega)]
    · rw [keyAt_array (by omega), show (((arrayindex key - 1).toNat : Nat) : Int) + 1 = arrayindex key by omega]
      exact rawequal_of_arrayindex low rfl
  · rw [value, getSlot_eq t' notNil, if_neg inside] at found
    cases searched : t'.search (rawequalObj · key) (mp.pos t'.lsizenode key) with
    | array i =>
      unfold search at searched
      split at searched <;> cases searched
    | nilobject =>
      rw [searched] at found
      exact absurd rfl found
    | node i =>
      rw [searched] at found
      have used : (t'.node i).val ≠ .nil := found
      have usedT : (t.node i).val ≠ .nil := mt (later.node i) used
      have equal := search_test searched
      have sameKey : t'.keys i = t.keys i := (later.keys i).resolve_right fun dead => used dead.2
      obtain ⟨notNilI, -⟩ := chained.not_isDeadkey usedT
      refine ⟨t.sizearray + i, ?_, ?_, ?_⟩
      · obtain ⟨home, scatter⟩ := chained.chains
        have small : i < t.sizenode := by
          by_contra outside
          exact labels_ne_nil.2 notNilI (scatter.outside (Nat.not_lt.1 outside))
        omega
      · rw [valueAt_node (by omega), size, Nat.add_sub_cancel_left]
        exact used
      · rw [keyAt_node (by omega), Nat.add_sub_cancel_left, ← sameKey]
        exact equal

theorem Undisturbed.traverses (undisturbed : Undisturbed mp t) (chained : Chained mp t) : Traverses mp t where
  finite := by
    refine ⟨t.sizearray + t.sizenode, fun p traversing => ?_⟩
    obtain ⟨ps, progress⟩ := traversing.progress undisturbed chained
    have nodup : ps.Nodup := progress.descending.imp fun less => (Nat.ne_of_lt less).symm
    have within : ∀ q ∈ ps, q ∈ List.range (t.sizearray + t.sizenode) := fun q member =>
      List.mem_range.2 (progress.inUse q member).1
    rw [progress.returned, List.length_map]
    simpa using (nodup.subperm within).length_le
  valid p traversing := by
    obtain ⟨ps, progress⟩ := traversing.progress undisturbed chained
    obtain ⟨i, index, low, -⟩ := progress.findindex undisturbed chained
    obtain ⟨q, -, -, -, -, result⟩ | ⟨-, result⟩ := nextEntry_spec index low <;> rw [result] <;> exact nofun
  once p traversing := by
    obtain ⟨ps, progress⟩ := traversing.progress undisturbed chained
    rw [progress.returned, List.pairwise_map]
    apply progress.descending.imp_of_mem
    intro q q' member member' less
    by_contra equal
    have same := undisturbed.keyAt_injective chained (progress.inUse q member).2 (progress.inUse q' member').2
      (by simpa using equal)
    omega
  complete p traversing ended key kept := by
    obtain ⟨ps, progress⟩ := traversing.progress undisturbed chained
    obtain ⟨i, index, low, -, emptied⟩ := progress.findindex undisturbed chained
    have later : ∀ t' ∈ p.table :: p.earlier, Later t t' := by
      intro t' member
      obtain rfl | member := List.mem_cons.1 member
      · exact progress.later
      · exact progress.seen t' member
    obtain ⟨q, inside, used, equal⟩ := progress.later.position chained (kept p.table List.mem_cons_self)
    have usedT : t.valueAt q ≠ .nil := mt progress.later.valueAt used
    refine ⟨t.keyAt q, ?_, equal⟩
    rw [progress.returned]
    apply List.mem_map_of_mem
    by_contra missed
    obtain ⟨q', -, -, -, -, result⟩ | ⟨rest, -⟩ := nextEntry_spec index low
    · rw [result] at ended
      cases ended
    by_cases beyond : i < q
    · exact used (rest q beyond (by rw [progress.later.sizearray, progress.later.sizenode]; exact inside))
    by_cases front : ∀ q' ∈ ps.head?, q' < q
    · exact used (emptied q (by omega) front)
    push Not at front
    obtain ⟨q', first, le⟩ := front
    have different : q ≠ q' := fun same => missed (same ▸ List.mem_of_mem_head? first)
    -- the entry was empty when the traversal passed it
    obtain ⟨t', member, empty⟩ := progress.skipped q' first q (by omega) missed
    obtain ⟨q'', -, used'', equal''⟩ := (later t' member).position chained (kept t' member)
    have usedT'' : t.valueAt q'' ≠ .nil := mt (later t' member).valueAt used''
    have same := undisturbed.keyAt_injective chained usedT usedT'' (rawequalObj_trans equal (rawequalObj_symm equal''))
    exact used'' (same ▸ empty)

/-! ## Disturbed tables are not -/

/-- Only the nodes of `kept` are still in use. -/
structure Reduced (mp : MainPosition N) (t : Table N) (kept : List Nat) (t' : Table N) : Prop where
  later : Later t t'
  chained : Chained mp t'
  used : ∀ i ∈ kept, (t'.node i).val ≠ .nil

/-- A traversal that has not started yet, after changes that keep a property. -/
structure Unstarted (mp : MainPosition N) (t : Table N) (kept : List Nat) (p : Traversal N) : Prop where
  traversing : Traversing mp t p
  key : p.key = .nil
  returned : p.returned = []
  reduced : ∀ t' ∈ p.table :: p.earlier, Reduced mp t kept t'

theorem Unstarted.change {kept : List Nat} {p : Traversal N} (unstarted : Unstarted mp t kept p)
    (change : Change mp p.table t') (reduced : Reduced mp t kept t') :
    Unstarted mp t kept { p with table := t', earlier := p.table :: p.earlier } where
  traversing := unstarted.traversing.change change
  key := unstarted.key
  returned := unstarted.returned
  reduced t'' member := by
    obtain rfl | member := List.mem_cons.1 member
    · exact reduced
    · exact unstarted.reduced t'' member

/-- The collector clears some slots, but none of the nodes that are kept. -/
theorem Unstarted.clear {kept : List Nat} (slots : List Slot) (others : ∀ i ∈ kept, .node i ∉ slots) :
    ∀ {p : Traversal N}, Unstarted mp t kept p → ∃ p', Unstarted mp t kept p' ∧
      (∀ i, .array i ∈ slots → p'.table.array i = .nil) ∧ (∀ i, .node i ∈ slots → (p'.table.node i).val = .nil) ∧
      p'.table.keys = p.table.keys ∧ Later p.table p'.table := by
  induction slots with
  | nil => exact fun {p} unstarted => ⟨p, unstarted, nofun, nofun, rfl, .refl _⟩
  | cons slot slots inductionHypothesis =>
    intro p unstarted
    have reduced := unstarted.reduced p.table List.mem_cons_self
    have cleared : Later p.table (p.table.write slot .nil) := .write .nil (.inr rfl)
    have reduced' : Reduced mp t kept (p.table.write slot .nil) := by
      refine ⟨reduced.later.trans cleared, reduced.chained.clear slot, fun i member => ?_⟩
      have other : slot ≠ .node i := fun same => others i member (same ▸ List.mem_cons_self)
      cases slot with
      | array | nilobject => exact reduced.used i member
      | node j =>
        have other : i ≠ j := fun same => other (same ▸ rfl)
        simp only [Table.write, Function.update_of_ne other]
        exact reduced.used i member
    obtain ⟨p', unstarted', array, node, keys, later⟩ := inductionHypothesis
      (fun i member listed => others i member (List.mem_cons_of_mem _ listed)) (unstarted.change (.clear slot) reduced')
    refine ⟨p', unstarted', fun i listed => ?_, fun i listed => ?_, keys.trans (by simp), cleared.trans later⟩
    · obtain same | listed := List.mem_cons.1 listed
      · apply later.array
        simp [← same, Table.write]
      · exact array i listed
    · obtain same | listed := List.mem_cons.1 listed
      · apply later.node
        simp [← same, Table.write]
      · exact node i listed

/-- The keys after that of node `j` has been marked dead. -/
def keysWithout (t : Table N) (j : Nat) : Nat → TValue N := Function.update t.keys j (deadkey (t.keys j))

/-- Before the traversal starts, all other entries are emptied and the key of one of them is dead. -/
theorem Chained.unstarted (chained : Chained mp t) {kept : List Nat} (used : ∀ i ∈ kept, (t.node i).val ≠ .nil) {j : Nat}
    (other : j ∉ kept) : ∃ p, Unstarted mp t kept p ∧ p.table.keys = t.keysWithout j ∧
      ∀ q, q < t.sizearray + t.sizenode → p.table.valueAt q ≠ .nil → ∃ i ∈ kept, q = t.sizearray + i := by
  have start : Unstarted mp t kept { table := t } := by
    refine ⟨.start, rfl, rfl, fun t' member => ?_⟩
    obtain rfl := List.mem_singleton.1 member
    exact ⟨.refl _, chained, used⟩
  obtain ⟨p, unstarted, arrays, nodes, keys, -⟩ := start.clear ((List.range t.sizearray).map .array ++ .node j ::
    ((List.range t.sizenode).filter (· ∉ kept)).map .node) (by
      intro i member listed
      simp only [List.mem_append, List.mem_map, List.mem_cons, List.mem_filter, reduceCtorEq, and_false, exists_false,
        Slot.node.injEq, false_or, exists_eq_right, decide_not, Bool.not_eq_true', decide_eq_false_iff_not] at listed
      obtain rfl | ⟨-, removed⟩ := listed
      · exact other member
      · exact removed member)
  have empty : (p.table.node j).val = .nil := nodes j (by simp)
  have reduced := unstarted.reduced p.table List.mem_cons_self
  have removed : Change mp p.table (p.table.removeentry j) := .removeentry j empty
  have unstarted' := unstarted.change removed (by
    refine ⟨reduced.later.trans removed.later, reduced.chained.removeentry empty, fun i member => ?_⟩
    rw [removeentry_val]
    exact reduced.used i member)
  refine ⟨_, unstarted', ?_, fun q inside inUse => ?_⟩
  · rw [removeentry_keys, keys, keysWithout]
  · have inUse' := mt removed.later.valueAt inUse
    have size := reduced.later.sizearray
    by_cases low : q < t.sizearray
    · rw [valueAt_array (by omega)] at inUse'
      exact absurd (arrays q (by simp [low])) inUse'
    · rw [valueAt_node (by omega), size] at inUse'
      refine ⟨q - t.sizearray, ?_, by omega⟩
      by_contra notKept
      have small : q - t.sizearray < t.sizenode := by omega
      exact inUse' (nodes _ (by simp [small, notKept]))

/-- With the node `i` first among the entries in use, `gafqH_next` returns its key. -/
theorem Unstarted.next {kept : List Nat} {p : Traversal N} (unstarted : Unstarted mp t kept p) {i : Nat} (member : i ∈ kept)
    (inside : i < t.sizenode) (alone : ∀ q, q < t.sizearray + t.sizenode → p.table.valueAt q ≠ .nil →
      ∃ i' ∈ kept, q = t.sizearray + i') (first : ∀ i' ∈ kept, i ≤ i')
    {key : TValue N} {m : Int} (index : p.table.findindex mp key = .ok m) (low : -1 ≤ m) (before : m < (t.sizearray + i : Nat)) :
    p.table.nextEntry mp key = .ok (some (t.keys i, (p.table.node i).val)) := by
  have reduced := unstarted.reduced p.table List.mem_cons_self
  have size := reduced.later.sizearray
  have sizenode := reduced.later.sizenode
  have used := reduced.used i member
  have here : p.table.valueAt (t.sizearray + i) ≠ .nil := by
    rwa [valueAt_node (by omega), size, Nat.add_sub_cancel_left]
  have sameKey : p.table.keys i = t.keys i := (reduced.later.keys i).resolve_right fun dead => used dead.2
  obtain ⟨q, above, below, usedQ, skipped, result⟩ | ⟨empty, -⟩ := nextEntry_spec index low
  · obtain ⟨i', member', rfl⟩ := alone q (by omega) usedQ
    have same : i' = i := by
      by_contra different
      have := first i' member'
      exact here (skipped (t.sizearray + i) before (by omega))
    subst same
    rw [result, keyAt_node (by omega), valueAt_node (by omega), size, Nat.add_sub_cancel_left, sameKey]
  · exact absurd (empty (t.sizearray + i) before (by omega)) here

theorem Chained.key_lt (chained : Chained mp t) {i : Nat} (present : t.keys i ≠ .nil) : i < t.sizenode := by
  obtain ⟨home, scatter⟩ := chained.chains
  by_contra outside
  exact labels_ne_nil.2 present (scatter.outside (Nat.not_lt.1 outside))

theorem Chained.node_lt (chained : Chained mp t) {i : Nat} (used : (t.node i).val ≠ .nil) : i < t.sizenode :=
  chained.key_lt (chained.not_isDeadkey used).1

/-- An index that is before the node of its key brings the key back. -/
theorem Traverses.not_before (traverses : Traverses mp t) (chained : Chained mp t) {i j : Nat}
    (used : (t.node i).val ≠ .nil) (other : j ≠ i) : ¬ ∃ m : Int, -1 ≤ m ∧ m < (t.sizearray + i : Nat) ∧
      ∀ t', Later t t' → t'.keys = t.keysWithout j → t'.findindex mp (t.keys i) = .ok m := by
  rintro ⟨m, low, before, index⟩
  obtain ⟨p, unstarted, dead, alone⟩ := @Chained.unstarted _ _ mp t chained [i] (by simpa using used) j (by simpa using other)
  have inside := chained.node_lt used
  have index' := index p.table (unstarted.reduced p.table List.mem_cons_self).later dead
  have first := unstarted.next List.mem_cons_self inside alone (by simp) (show p.table.findindex mp .nil = .ok (-1) from rfl)
    (le_refl _) (by omega)
  have second := unstarted.next List.mem_cons_self inside alone (by simp) index' low before
  have returned := ((unstarted.traversing.next (by rw [unstarted.key]; exact first)).next second)
  have once := traverses.once _ returned
  have self := (chained.isKey (chained.not_isDeadkey used).1).self
  have different : rawequalObj (t.keys i) (t.keys i) = false := List.rel_of_pairwise_cons once List.mem_cons_self
  rw [self] at different
  cases different

theorem Traverses.apart (traverses : Traverses mp t) (chained : Chained mp t) (i : Nat) (used : (t.node i).val ≠ .nil) :
    ¬ t.InArray (t.keys i) := by
  intro inside
  apply traverses.not_before chained used (show i + 1 ≠ i by omega)
  obtain ⟨low, high⟩ := inside
  refine ⟨arrayindex (t.keys i) - 1, by omega, by omega, fun t' later _ => ?_⟩
  have isNil : (t.keys i).isNil = false := by simpa using (chained.not_isDeadkey used).1
  unfold findindex
  rw [isNil, if_neg (by simp), later.sizearray, if_pos ⟨low, high⟩]

/-- Once its key is dead, the search ends at the node that stands before. -/
theorem Shadows.findindex {i j a : Nat} (shadows : Shadows mp t i j a) (chained : Chained mp t)
    (used : (t.node i).val ≠ .nil) (apart : ¬ t.InArray (t.keys i)) (later : Later t t')
    (dead : t'.keys = t.keysWithout j) : t'.findindex mp (t.keys i) = .ok ((j : Int) + t.sizearray) := by
  obtain ⟨notNil, -⟩ := chained.not_isDeadkey used
  obtain ⟨home, scatter⟩ := chained.chains
  have deadJ : t'.keys j = .deadkey a := by
    have found := shadows.found
    rw [dead, keysWithout, Function.update_self]
    cases key : t.keys j <;> rw [key] at found <;> simp_all [deadkey, TValue.gcaddress]
  obtain ⟨j', found, onChain, before, stops, first⟩ := chained.search_later later used
  have reaches := first j a deadJ shadows.searched shadows.onChain
  have same : j' = j := by
    obtain rfl | ⟨a', deadJ', searched⟩ := stops
    · exact scatter.linked.antisymm reaches shadows.before
    · have address : a' = a := Option.some.inj (searched.symm.trans shadows.searched)
      subst address
      by_contra different
      rw [dead, keysWithout, Function.update_of_ne different] at deadJ'
      exact different (shadows.first j' deadJ' onChain reaches)
  rw [findindex_of_not_inArray notNil (mt later.inArray.1 apart), later.lsizenode, found, later.sizearray, same]

/-- An entry between a node and the dead key that shadows it would be missed. -/
theorem Traverses.unshadowed (traverses : Traverses mp t) (chained : Chained mp t) {i j a : Nat}
    (used : (t.node i).val ≠ .nil) (shadows : Shadows mp t i j a) :
    i < j ∧ ∀ k, i < k → k < j → (t.node k).val = .nil := by
  have apart := traverses.apart chained i used
  have index : ∀ t', Later t t' → t'.keys = t.keysWithout j → t'.findindex mp (t.keys i) = .ok ((j : Int) + t.sizearray) :=
    fun t' later dead => shadows.findindex chained used apart later dead
  have after : i < j := by
    by_contra before
    have other := shadows.other
    exact traverses.not_before chained used other ⟨(j : Int) + t.sizearray, by omega, by omega, index⟩
  refine ⟨after, fun k above below => ?_⟩
  by_contra usedK
  have bothUsed : ∀ i' ∈ [i, k], (t.node i').val ≠ .nil := by simp [used, usedK]
  obtain ⟨p, unstarted, dead, alone⟩ := @Chained.unstarted _ _ mp t chained [i, k] bothUsed j
    (by simp only [List.mem_cons, List.not_mem_nil, or_false, not_or]; omega)
  have reduced := unstarted.reduced p.table List.mem_cons_self
  have first := unstarted.next List.mem_cons_self (chained.node_lt used) alone
    (by simp only [List.mem_cons, List.not_mem_nil, or_false, forall_eq_or_imp, forall_eq]; omega)
    (show p.table.findindex mp .nil = .ok (-1) from rfl) (le_refl _) (by omega)
  have started := unstarted.traversing.next (by rw [unstarted.key]; exact first)
  -- the traversal goes on behind `j`, where no entry is left
  have ended : p.table.nextEntry mp (t.keys i) = .ok none := by
    obtain ⟨q, behind, inside, usedQ, -⟩ | ⟨-, result⟩ := nextEntry_spec (index p.table reduced.later dead) (by omega)
    · have sizes := reduced.later.sizearray
      have sizenode := reduced.later.sizenode
      obtain ⟨i', member, rfl⟩ := alone q (by omega) usedQ
      simp only [List.mem_cons, List.not_mem_nil, or_false] at member
      omega
    · exact result
  obtain ⟨key, returned, equal⟩ := traverses.complete _ started ended (t.keys k) fun t' member => by
    have reduced' := unstarted.reduced t' member
    have usedK' := reduced'.used k (by simp)
    have sameKey : t'.keys k = t.keys k := (reduced'.later.keys k).resolve_right fun dead => usedK' dead.2
    obtain ⟨notNil, live⟩ := chained.not_isDeadkey usedK
    have self := (chained.isKey notNil).self
    have outside := mt reduced'.later.inArray.1 (traverses.apart chained k usedK)
    have found := reduced'.chained.search_node (sameKey ▸ notNil) live (sameKey ▸ self)
    rw [value, getSlot_eq t' notNil, if_neg outside, found]
    exact usedK'
  obtain ⟨home, scatter⟩ := chained.chains
  obtain ⟨notNil, live⟩ := chained.not_isDeadkey used
  obtain ⟨notNilK, liveK⟩ := chained.not_isDeadkey usedK
  have onlyKey : key = t.keys i := by simpa [unstarted.returned] using returned
  subst onlyKey
  have same := scatter.distinct (labels_ne_nil.2 notNil) (labels_ne_nil.2 notNilK)
    (by rw [labels_live live, labels_live liveK]; exact equal)
  omega

/-- The traversals of a table are right exactly when no key in use has strayed into the range of the
array part and no key in use is shadowed by one at the same address. -/
theorem traverses_iff (reachable : Reachable mp t) : Traverses mp t ↔ Undisturbed mp t := by
  have chained := reachable.chained
  constructor
  · intro traverses
    exact ⟨traverses.apart chained, fun i j a used shadows => traverses.unshadowed chained used shadows⟩
  · exact fun undisturbed => undisturbed.traverses chained

end Table

/-! ## A dead key at a reused address -/

namespace Reuse

open Table

/-- A table with four nodes. -/
def created : Table Int := finalState (setnodevector true 4) empty

/-- A store that needs no rehash. -/
def store (t : Table Int) (op : TableOp Int) : Table Int :=
  finalState (storeAt (op.insertionAt intPosition {} 0) op.stored) t

/-- A table and a function at the same address, one after the other, and an object on their chain. -/
def head : TValue Int := .object .table 0
def table : TValue Int := .object .table 3
def function : TValue Int := .object .function 3

/-- The table is removed by the program and its node stays behind the head.  The function takes the
position before it, and is collected together with its entry. -/
def emptied : Table Int :=
  store (store (store (store created (.set head (.number 1))) (.set table (.number 2))) (.set table .nil))
    (.set function (.number 3))

/-- Another table lives at the address and finds the node of the first one. -/
def reused : Table Int := store ((emptied.write (.node 2) .nil).removeentry 2) (.set table (.number 4))

theorem reachable_created : Reachable intPosition created :=
  @ReachableIn.new _ _ _ intPosition {} 0 4 _ (by decide) rfl

/-- The conditions of a store, for the nodes that the table has, and that it needs no rehash. -/
def isStore (t : Table Int) (op : TableOp Int) : Bool :=
  (!op.key.isDeadkey && (List.range 4).all fun i =>
    (t.node i).val.isNil || (t.keys i).gcaddress != op.key.gcaddress || t.keys i == op.key) &&
  match op.insertionAt intPosition {} 0 t with
  | .ok _ _ => true
  | .error _ _ => false

theorem reachable_store {t : Table Int} {op : TableOp Int} (reachable : Reachable intPosition t) (four : t.lsizenode = 2)
    (isStore : isStore t op = true) : Reachable intPosition (store t op) := by
  simp only [Reuse.isStore, Bool.and_eq_true, Bool.not_eq_true', List.all_eq_true, List.mem_range, Bool.or_eq_true,
    TValue.isNil_iff, bne_iff_ne, ne_eq, beq_iff_eq] at isStore
  obtain ⟨⟨live, others⟩, ran⟩ := isStore
  refine .store {} 0 reachable ⟨live, fun i a used address same => ?_⟩ fun t' failed => ?_
  · have small := reachable.chained.node_lt used
    rw [sizenode, four] at small
    obtain (free | other) | equal := others i small
    · exact absurd free used
    · exact absurd (address.trans same.symm) other
    · exact equal
  · rw [failed] at ran
    cases ran

theorem reachable_emptied : Reachable intPosition emptied :=
  reachable_store (reachable_store (reachable_store (reachable_store reachable_created
    (by decide +kernel) (by decide +kernel)) (by decide +kernel) (by decide +kernel))
    (by decide +kernel) (by decide +kernel)) (by decide +kernel) (by decide +kernel)

theorem reachable_reused : Reachable intPosition reused :=
  reachable_store ((reachable_emptied.clear (.node 2)).removeentry 2 (by decide +kernel)) (by decide +kernel) (by decide +kernel)

def other : TValue Int := .object .table 8

/-- Another entry has moved that of the function, whose key is dead now; the node of the first table is empty. -/
def collected : Table Int := ((store emptied (.set other (.number 5))).write (.node 1) .nil).removeentry 1

theorem reachable_collected : Reachable intPosition collected :=
  ((reachable_store reachable_emptied (by decide +kernel) (by decide +kernel)).clear (.node 1)).removeentry 1 (by decide +kernel)

end Reuse

/-- A traversal may come back to the same key for ever, although nothing changes. -/
theorem reused_not_traverses : Reachable intPosition Reuse.reused ∧ ¬ Table.Traverses intPosition Reuse.reused := by
  refine ⟨Reuse.reachable_reused, fun traverses => ?_⟩
  have first : Reuse.reused.nextEntry intPosition .nil = .ok (some (Reuse.head, .number 1)) := by decide +kernel
  have second : Reuse.reused.nextEntry intPosition Reuse.head = .ok (some (Reuse.table, .number 4)) := by decide +kernel
  have third : Reuse.reused.nextEntry intPosition Reuse.table = .ok (some (Reuse.table, .number 4)) := by decide +kernel
  have once := traverses.once _ (((Table.Traversing.start.next first).next second).next third)
  simp [Reuse.table, rawequalObj] at once

/-- A table with two entries and a dead key. -/
theorem traverses_iff_collected : Table.Traverses intPosition Reuse.collected ∧ Reuse.collected.value intPosition Reuse.head = .number 1 ∧
    Reuse.collected.value intPosition Reuse.other = .number 5 ∧ Reuse.collected.keys 1 = .deadkey 3 := by
  have four : Reuse.collected.sizenode = 4 := by decide +kernel
  have chained := Reuse.reachable_collected.chained
  have apart : ∀ i < 4, (Reuse.collected.node i).val ≠ .nil → ¬ Reuse.collected.InArray (Reuse.collected.keys i) := by decide +kernel
  have addresses : ∀ i < 4, ∀ j < 4, (Reuse.collected.node i).val ≠ .nil → j ≠ i →
      (Reuse.collected.keys j).gcaddress ≠ (Reuse.collected.keys i).gcaddress := by decide +kernel
  refine ⟨(Table.traverses_iff Reuse.reachable_collected).2
    ⟨fun i used => apart i (four ▸ chained.node_lt used) used, fun i j a used shadows => ?_⟩, by decide +kernel, by decide +kernel, by decide +kernel⟩
  have present : Reuse.collected.keys j ≠ .nil := by
    intro absent
    have found := shadows.found
    rw [absent] at found
    cases found
  exact absurd (shadows.found.trans shadows.searched.symm)
    (addresses i (four ▸ chained.node_lt used) j (four ▸ chained.key_lt present) used shadows.other)

end Gafq
