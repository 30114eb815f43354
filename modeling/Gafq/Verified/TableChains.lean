import Gafq.Traversal
import Gafq.Base.Ensures
import Gafq.Verified.TableRefinement

/-! # Chains with dead keys

`WellFormed` cannot be kept once the collector marks keys of empty entries dead: a dead key does
not say any more on which chain it is, and an object may come to live at the address of one that is
gone.  `Chained` is what remains in every table that a program can come by, through stores that fail
or succeed and through the work of the collector: live keys are on the chains of their main
positions, next to dead keys of which only the chain is known.
-/

namespace Gafq

open Base

variable {N : Type} [GafqNumber N]

/-- What a node was inserted under. -/
inductive Label (N : Type) where
  | key (k : TValue N)
  /-- the key is dead; the chain of its node starts at `home` -/
  | dead (home : Nat)

/-- The key of an entry that the collector has emptied. -/
def TValue.isDeadkey : TValue N → Bool
  | .deadkey _ => true
  | _ => false

namespace Table

variable {slack : Nat} {mp : MainPosition N} {t t' : Table N} {key : TValue N}

/-! ## The invariant -/

/-- The label at each position. -/
def labels (t : Table N) (home : Nat → Nat) (i : Nat) : Label N :=
  if (t.keys i).isDeadkey then .dead (home i) else .key (t.keys i)

/-- Labels and their main positions. -/
def labelling (mp : MainPosition N) (t : Table N) : Hashing (Label N) where
  nil := .key .nil
  equal
    | .key a, .key b => rawequalObj a b
    | _, _ => false
  size := t.sizenode
  pos
    | .key k => mp.pos t.lsizenode k
    | .dead home => home % t.sizenode
  equal_symm {a b} equal := by
    cases a <;> cases b <;> first | exact rawequalObj_symm equal | cases equal
  equal_trans {a b c} first second := by
    cases a <;> cases b <;> cases c <;>
      first | exact rawequalObj_trans first second | cases first | cases second
  pos_lt label := by
    cases label with
    | key k => exact mp.pos_lt t.lsizenode k
    | dead home => exact Nat.mod_lt _ (Nat.pow_pos (by decide))
  pos_congr {a b} equal := by
    cases a <;> cases b <;> first | exact mp.pos_congr t.lsizenode equal | cases equal

structure ChainedIn (slack : Nat) (mp : MainPosition N) (t : Table N) : Prop where
  chains : ∃ home, Scatter (t.labelling mp) (t.labels home) t.next
  unused : ∀ {i}, t.keys i = .nil ∨ (t.keys i).isDeadkey = true → (t.node i).val = .nil
  isKey : ∀ {i}, t.keys i ≠ .nil → IsKey (t.keys i)
  lastfree_le : t.lastfree ≤ t.sizenode
  dummy : t.isDummy = true → t.lastfree ≤ 0
  bare : t.isDummy = true → ∀ i, t.keys i = .nil
  /-- an index of the array part is an `int`, also when the slack is added to it -/
  inInt : InInt (t.sizearray + slack : Nat)
  lsizenode_le : t.lsizenode ≤ maxBits

/-- With this slack, the numbers that `findindex` gives out are of type `int`. -/
abbrev Chained (mp : MainPosition N) (t : Table N) : Prop := ChainedIn (2 ^ maxBits) mp t

/-! ## Labels -/

omit [GafqNumber N] in
theorem labels_live {home : Nat → Nat} {i : Nat} (live : (t.keys i).isDeadkey = false) :
    t.labels home i = .key (t.keys i) := by
  simp [labels, live]

omit [GafqNumber N] in
theorem labels_ne_nil {home : Nat → Nat} {i : Nat} : t.labels home i ≠ .key .nil ↔ t.keys i ≠ .nil := by
  unfold labels
  split
  · rename_i dead
    constructor
    · intro _ free
      rw [free] at dead
      cases dead
    · intro _ same
      cases same
  · simp

omit [GafqNumber N] in
theorem labels_update {home : Nat → Nat} {m : Nat} (keys : t'.keys = Function.update t.keys m key)
    (live : key.isDeadkey = false) : t'.labels home = Function.update (t.labels home) m (.key key) := by
  funext i
  rw [labels, keys, Function.update_apply, Function.update_apply]
  split
  · simp [live]
  · rfl

theorem labelling_congr (lsizenode : t'.lsizenode = t.lsizenode) : t'.labelling mp = t.labelling mp := by
  simp only [labelling, sizenode, lsizenode]

/-- A table with the same keys and links is as well chained. -/
theorem ChainedIn.congr (chained : ChainedIn slack mp t) (keys : t'.keys = t.keys) (next : t'.next = t.next)
    (lsizenode : t'.lsizenode = t.lsizenode) (isDummy : t'.isDummy = t.isDummy) (lastfree : t'.lastfree ≤ t.lastfree)
    (unused : ∀ {i}, t.keys i = .nil ∨ (t.keys i).isDeadkey = true → (t'.node i).val = .nil)
    (inInt : InInt (t'.sizearray + slack : Nat)) : ChainedIn slack mp t' := by
  obtain ⟨home, scatter⟩ := chained.chains
  have labels : t'.labels home = t.labels home := by
    funext i
    simp only [Table.labels, keys]
  constructor
  · rw [labelling_congr lsizenode, next]
    exact ⟨home, labels ▸ scatter⟩
  · rw [keys]
    exact unused
  · rw [keys]
    exact chained.isKey
  · rw [sizenode, lsizenode]
    exact lastfree.trans chained.lastfree_le
  · rw [isDummy]
    intro dummy
    exact lastfree.trans (chained.dummy dummy)
  · rw [isDummy, keys]
    exact chained.bare
  · exact inInt
  · rw [lsizenode]
    exact chained.lsizenode_le

/-! ## Search -/

/-- A key that a program may use. -/
structure Held (key : TValue N) : Prop where
  isKey : IsKey key
  live : key.isDeadkey = false

omit [GafqNumber N] in
theorem search_test {test : TValue N → Bool} {start i : Nat} (found : t.search test start = .node i) :
    test (t.keys i) = true := by
  unfold search at found
  split at found
  · rename_i walked
    cases found
    have passes := walk_test walked
    exact passes
  · cases found

/-- A live key is found by the search for an equal one. -/
theorem ChainedIn.search_node (chained : ChainedIn slack mp t) {i : Nat} (used : t.keys i ≠ .nil)
    (live : key.isDeadkey = false) (equal : rawequalObj (t.keys i) key = true) :
    t.search (rawequalObj · key) (mp.pos t.lsizenode key) = .node i := by
  obtain ⟨home, scatter⟩ := chained.chains
  have liveI : (t.keys i).isDeadkey = false := by
    cases same : t.keys i with
    | deadkey a =>
      rw [same] at equal
      cases key <;> first | cases equal | cases live
    | nil | boolean | lightuserdata | number | string | object => rfl
  have tests : (fun j => rawequalObj (t.node j).key key) =
      fun j => (t.labelling mp).equal (t.labels home j) (.key key) := by
    funext j
    unfold labels
    split
    · rename_i dead
      change rawequalObj (t.keys j) key = false
      cases same : t.keys j with
      | deadkey a => cases key <;> first | rfl | cases live
      | nil | boolean | lightuserdata | number | string | object => rw [same] at dead; cases dead
    · rfl
  have notNil : key ≠ .nil := ((chained.isKey used).of_rawequal (rawequalObj_symm equal)).ne_nil
  have found : walk t.next (fun j => (t.labelling mp).equal (t.labels home j) (.key key)) t.sizenode
      (mp.pos t.lsizenode key) = some i :=
    scatter.walk_present (labels_ne_nil.2 used) (rawequalObj_nil notNil) (by rw [labels_live liveI]; exact equal)
  unfold search
  rw [tests, found]

/-- A key that is not in the table. -/
structure Missing (t : Table N) (key : TValue N) : Prop where
  held : Held key
  absent : ∀ i, t.keys i ≠ .nil → rawequalObj (t.keys i) key = false

theorem ChainedIn.missing (chained : ChainedIn slack mp t) (held : Held key) (notFound : t.getSlot mp key = .nilobject) :
    Missing t key := by
  refine ⟨held, fun i used => ?_⟩
  rw [getSlot_eq t held.isKey.ne_nil] at notFound
  split at notFound
  · cases notFound
  · by_contra equal
    rw [chained.search_node used held.live (by simpa using equal)] at notFound
    cases notFound

theorem Missing.fresh {home : Nat → Nat} (missing : Missing t key) :
    (t.labelling mp).Fresh (t.labels home) (.key key) where
  ne_nil same := by
    injection same with same
    exact missing.held.isKey.ne_nil same
  absent i used := by
    unfold labels
    split
    · rfl
    · exact missing.absent i (labels_ne_nil.1 used)

/-- A value may be stored there: the slot is not that of a dead key. -/
def Storable (t : Table N) (slot : Slot) : Prop :=
  ∀ i, slot = .node i → t.keys i ≠ .nil ∧ (t.keys i).isDeadkey = false

theorem storable_getSlot (notNil : key ≠ .nil) (live : key.isDeadkey = false) : t.Storable (t.getSlot mp key) := by
  intro i found
  rw [getSlot_eq t notNil] at found
  split at found
  · cases found
  · have equal := search_test found
    constructor
    · intro free
      rw [free, rawequalObj_nil notNil] at equal
      cases equal
    · cases same : t.keys i with
      | deadkey a =>
        rw [same] at equal
        cases key <;> first | cases equal | cases live
      | nil | boolean | lightuserdata | number | string | object => rfl

theorem ChainedIn.write (chained : ChainedIn slack mp t) {slot : Slot} (storable : t.Storable slot) (v : TValue N) :
    ChainedIn slack mp (t.write slot v) := by
  apply chained.congr (by simp) (by simp) (by simp) (by simp) (by simp) ?_ (by simpa using chained.inInt)
  intro i unused
  cases slot with
  | array | nilobject => exact chained.unused unused
  | node j =>
    have other : i ≠ j := by
      rintro rfl
      obtain ⟨notNil, live⟩ := storable i rfl
      rcases unused with free | dead
      · exact notNil free
      · rw [live] at dead
        cases dead
    simp only [Table.write, Function.update_of_ne other]
    exact chained.unused unused

/-! ## New keys -/

omit [GafqNumber N] in
theorem getfreepos_free {lastfree : Int} {n : Nat} (found : t.getfreepos = (lastfree, some n)) :
    lastfree = n ∧ n < t.lastfree ∧ t.keys n = .nil := by
  unfold getfreepos at found
  split at found
  · have spec := t.getfreeposLoop_spec t.lastfree.toNat
    rw [found] at spec
    obtain ⟨last, below, free, -⟩ := spec
    exact ⟨last, by omega, free⟩
  · cases found

omit [GafqNumber N] in
theorem getfreepos_le (t : Table N) : t.getfreepos.1 ≤ t.lastfree := by
  unfold getfreepos
  split
  · have spec := t.getfreeposLoop_spec t.lastfree.toNat
    cases found : t.getfreeposLoop t.lastfree.toNat with
    | mk lastfree free =>
      rw [found] at spec
      cases free with
      | none => simp only; omega
      | some n => simp only; omega
  · simp only; omega

theorem ChainedIn.setLastfree (chained : ChainedIn slack mp t) {lastfree : Int} (low : lastfree ≤ t.lastfree) :
    ChainedIn slack mp { t with lastfree } :=
  chained.congr rfl rfl rfl rfl low chained.unused chained.inInt

theorem ChainedIn.setFlags (chained : ChainedIn slack mp t) (flags : UInt8) : ChainedIn slack mp { t with flags } :=
  chained.congr rfl rfl rfl rfl (le_refl _) chained.unused chained.inInt

/-- A table without nodes has no free position. -/
theorem ChainedIn.not_dummy (chained : ChainedIn slack mp t) {n : Nat}
    (below : (n : Int) < t.lastfree) : t.isDummy = false := by
  by_contra dummy
  have := chained.dummy (by simpa using dummy)
  omega

/-- `t'` is `t` with a new key at position `i`; other nodes keep their keys or have moved. -/
theorem ChainedIn.of_insertion (chained : ChainedIn slack mp t) (held : Held key) {i : Nat} {home : Nat → Nat}
    (placed : t'.keys i = key) (scatter : Scatter (t.labelling mp) (t'.labels home) t'.next)
    (lsizenode : t'.lsizenode = t.lsizenode) (isDummy : t'.isDummy = t.isDummy) (notDummy : t.isDummy = false)
    (lastfree : t'.lastfree ≤ t.lastfree) (sizearray : t'.sizearray = t.sizearray)
    (origin : ∀ j, j ≠ i → ∃ j', t'.keys j = t.keys j' ∧ (t'.node j).val = (t.node j').val) : ChainedIn slack mp t' where
  chains := ⟨home, by rwa [labelling_congr lsizenode]⟩
  unused {j} unused := by
    have other : j ≠ i := by
      rintro rfl
      rw [placed, held.live] at unused
      exact held.isKey.ne_nil (unused.resolve_right (by simp))
    obtain ⟨j', sameKey, sameVal⟩ := origin j other
    rw [sameVal]
    exact chained.unused (sameKey ▸ unused)
  isKey {j} used := by
    by_cases here : j = i
    · rw [here, placed]
      exact held.isKey
    · obtain ⟨j', sameKey, -⟩ := origin j here
      rw [sameKey] at used ⊢
      exact chained.isKey used
  lastfree_le := by
    rw [sizenode, lsizenode]
    exact lastfree.trans chained.lastfree_le
  dummy dummy := lastfree.trans (chained.dummy (isDummy ▸ dummy))
  bare dummy := by
    rw [isDummy, notDummy] at dummy
    cases dummy
  inInt := sizearray ▸ chained.inInt
  lsizenode_le := lsizenode ▸ chained.lsizenode_le

/-- What an insertion achieves: the table stays chained and the slot may be stored to. -/
def Placed (slack : Nat) (mp : MainPosition N) (slot : Slot) (t : Table N) : Prop := ChainedIn slack mp t ∧ t.Storable slot

omit [GafqNumber N] in
theorem storable_node {i : Nat} (placed : t.keys i = key) (notNil : key ≠ .nil) (live : key.isDeadkey = false) :
    t.Storable (.node i) := by
  intro j same
  cases same
  rw [placed]
  exact ⟨notNil, live⟩

/-- The key overwrites the unused node at its main position. -/
theorem ChainedIn.setKey_placed (chained : ChainedIn slack mp t) (missing : Missing t key) (notDummy : t.isDummy = false) :
    Placed slack mp (.node (mp.pos t.lsizenode key)) (t.setKey (mp.pos t.lsizenode key) key) := by
  obtain ⟨home, scatter⟩ := chained.chains
  have keysEq := t.setKey_keys (mp.pos t.lsizenode key) key
  have placed : (t.setKey (mp.pos t.lsizenode key) key).keys (mp.pos t.lsizenode key) = key := by
    rw [keysEq, Function.update_self]
  refine ⟨?_, storable_node placed missing.held.isKey.ne_nil missing.held.live⟩
  apply @ChainedIn.of_insertion _ _ slack mp t _ key chained missing.held _ home placed ?_ rfl rfl notDummy (le_refl _) rfl ?_
  · rw [labels_update keysEq missing.held.live, setKey_next]
    exact scatter.overwrite missing.fresh
  · intro j other
    refine ⟨j, by rw [keysEq, Function.update_of_ne other], ?_⟩
    rw [setKey_node, if_neg other]

/-- The key joins the chain of a node at home. -/
theorem ChainedIn.link_placed (chained : ChainedIn slack mp t) (missing : Missing t key) {n : Nat} (free : t.keys n = .nil)
    (below : (n : Int) < t.lastfree) (used : (t.node (mp.pos t.lsizenode key)).val ≠ .nil)
    (atHome : mp.pos t.lsizenode (t.keys (mp.pos t.lsizenode key)) = mp.pos t.lsizenode key) :
    Placed slack mp (.node n) (({ t with lastfree := (n : Int) }.chainNode (mp.pos t.lsizenode key) n).setKey n key) := by
  obtain ⟨home, scatter⟩ := chained.chains
  have live : (t.keys (mp.pos t.lsizenode key)).isDeadkey = false := by
    by_contra dead
    exact used (chained.unused (.inr (by simpa using dead)))
  have taken : t.keys (mp.pos t.lsizenode key) ≠ .nil := fun free => used (chained.unused (.inl free))
  have distinct : mp.pos t.lsizenode key ≠ n := fun same => taken (same ▸ free)
  have small : n < t.sizenode := by
    have := chained.lastfree_le
    omega
  have keysEq := @linked_keys _ t key (mp.pos t.lsizenode key) n n distinct
  have placed : (({ t with lastfree := (n : Int) }.chainNode (mp.pos t.lsizenode key) n).setKey n key).keys n = key := by
    rw [keysEq, Function.update_self]
  have freeLabel : t.labels home n = .key .nil := by simp [labels, free, TValue.isDeadkey]
  have label := @labels_live _ t home (mp.pos t.lsizenode key) live
  refine ⟨?_, storable_node placed missing.held.isKey.ne_nil missing.held.live⟩
  apply @ChainedIn.of_insertion _ _ slack mp t _ key chained missing.held _ home placed ?_ rfl rfl (chained.not_dummy below) (le_of_lt below) rfl ?_
  · rw [labels_update keysEq missing.held.live, linked_next distinct]
    exact scatter.link missing.fresh freeLabel small (labels_ne_nil.2 taken)
      (by simpa only [labelling, label] using atHome)
  · intro j other
    refine ⟨j, by rw [keysEq, Function.update_of_ne other], ?_⟩
    rw [linked_node distinct, if_neg other]
    split <;> rfl

/-- The key takes the place of a node that is not at home. -/
theorem ChainedIn.move_placed (chained : ChainedIn slack mp t) (missing : Missing t key) {n prev : Nat} (free : t.keys n = .nil)
    (below : (n : Int) < t.lastfree) (used : (t.node (mp.pos t.lsizenode key)).val ≠ .nil)
    (stranger : mp.pos t.lsizenode (t.keys (mp.pos t.lsizenode key)) ≠ mp.pos t.lsizenode key)
    (step : t.next prev = some (mp.pos t.lsizenode key)) :
    Placed slack mp (.node (mp.pos t.lsizenode key))
      (({ t with lastfree := (n : Int) }.moveNode prev (mp.pos t.lsizenode key) n).setKey
        (mp.pos t.lsizenode key) key) := by
  obtain ⟨home, scatter⟩ := chained.chains
  have live : (t.keys (mp.pos t.lsizenode key)).isDeadkey = false := by
    by_contra dead
    exact used (chained.unused (.inr (by simpa using dead)))
  have taken : t.keys (mp.pos t.lsizenode key) ≠ .nil := fun free => used (chained.unused (.inl free))
  have distinct : mp.pos t.lsizenode key ≠ n := fun same => taken (same ▸ free)
  have small : n < t.sizenode := by
    have := chained.lastfree_le
    omega
  have freeLabel : t.labels home n = .key .nil := by simp [labels, free, TValue.isDeadkey]
  have label := @labels_live _ t home (mp.pos t.lsizenode key) live
  have notSelf : prev ≠ mp.pos t.lsizenode key := by
    intro same
    rw [same] at step
    exact scatter.linked.next_ne_self step
  have notFree : prev ≠ n := by
    intro same
    rw [same, (scatter.free freeLabel).no_next] at step
    cases step
  have keysEq := @moved_keys _ t key (mp.pos t.lsizenode key) n prev n distinct notSelf
  have placed : (({ t with lastfree := (n : Int) }.moveNode prev (mp.pos t.lsizenode key) n).setKey
      (mp.pos t.lsizenode key) key).keys (mp.pos t.lsizenode key) = key := by
    rw [keysEq, Function.update_self]
  -- the node that moves is alive, so its label moves with it
  have labelsEq : (({ t with lastfree := (n : Int) }.moveNode prev (mp.pos t.lsizenode key) n).setKey
      (mp.pos t.lsizenode key) key).labels home = Function.update (Function.update (t.labels home) n
        (t.labels home (mp.pos t.lsizenode key))) (mp.pos t.lsizenode key) (.key key) := by
    funext i
    have liveKey := missing.held.live
    simp only [labels, keysEq, Function.update_apply]
    split
    · simp [liveKey]
    · split <;> simp [live]
  refine ⟨?_, storable_node placed missing.held.isKey.ne_nil missing.held.live⟩
  apply @ChainedIn.of_insertion _ _ slack mp t _ key chained missing.held _ home placed ?_ rfl rfl (chained.not_dummy below) (le_of_lt below) rfl ?_
  · rw [labelsEq, moved_next distinct notSelf notFree]
    exact scatter.move missing.fresh freeLabel small (labels_ne_nil.2 taken)
      (by simpa only [labelling, label] using stranger) step
  · intro j other
    by_cases new : j = n
    · refine ⟨mp.pos t.lsizenode key, ?_, ?_⟩
      · rw [keysEq, Function.update_of_ne other, new, Function.update_self]
      · rw [moved_node distinct notSelf, if_neg other, if_pos new]
    · refine ⟨j, by rw [keysEq, Function.update_of_ne other, Function.update_of_ne new], ?_⟩
      rw [moved_node distinct notSelf, if_neg other, if_neg new]
      split <;> rfl

/-! ## Programs -/

variable {grow : TValue N → TableM N Slot}

/-- What the rehash inside an insertion must keep. -/
def Grows (slack : Nat) (mp : MainPosition N) (grow : TValue N → TableM N Slot) : Prop :=
  ∀ key : TValue N, Held key → Ensures (ChainedIn slack mp) (grow key) (Placed slack mp) (ChainedIn slack mp)

theorem newkeyWith_placed (grows : Grows slack mp grow) (held : Held key) :
    Ensures (fun t => ChainedIn slack mp t ∧ Missing t key) (newkeyWith mp grow key) (Placed slack mp) (ChainedIn slack mp) := by
  intro t ⟨chained, missing⟩
  unfold newkeyWith
  by_cases test : (!(t.node (mp.pos t.lsizenode key)).val.isNil || t.isDummy) = true
  · simp only [test, if_true]
    cases found : t.getfreepos with
    | mk lastfree free =>
      have low : lastfree ≤ t.lastfree := by
        have := t.getfreepos_le
        rwa [found] at this
      cases free with
      | none => exact grows key held _ (chained.setLastfree low)
      | some n =>
        obtain ⟨rfl, below, free⟩ := getfreepos_free found
        have notDummy : t.isDummy = false := chained.not_dummy below
        have used : (t.node (mp.pos t.lsizenode key)).val ≠ .nil := by simpa [notDummy] using test
        simp only [insertAt]
        by_cases atHome : mp.pos t.lsizenode (t.keys (mp.pos t.lsizenode key)) = mp.pos t.lsizenode key
        · rw [if_neg (by simpa [keys] using atHome)]
          exact chained.link_placed missing free below used atHome
        · rw [if_pos (by simpa [keys] using atHome)]
          have sameNext : ({ t with lastfree := (n : Int) } : Table N).next = t.next := rfl
          have sameSize : ({ t with lastfree := (n : Int) } : Table N).sizenode = t.sizenode := rfl
          simp only [sameNext, sameSize]
          cases walked : walk t.next (fun i => t.next i == some (mp.pos t.lsizenode key)) t.sizenode
              (mp.pos t.lsizenode (t.node (mp.pos t.lsizenode key)).key) with
          | none => exact chained.setLastfree low
          | some prev => exact chained.move_placed missing free below used atHome (by simpa using walk_test walked)
  · simp only [test, if_false, Bool.false_eq_true]
    exact chained.setKey_placed missing (by simp_all)

theorem isKey_of_not_isNaN (notNil : key ≠ .nil) (notNaN : key.isNaN = false) : IsKey key := by
  refine ⟨notNil, ?_⟩
  cases key with
  | number n =>
    have self : numeq n n = true := by simpa [TValue.isNaN] using notNaN
    exact self
  | nil => exact absurd rfl notNil
  | boolean | lightuserdata | string | object | deadkey => simp [rawequalObj]

/-- A set function after its checks: search, and insert what was not found. -/
theorem get_or_newkey_placed (grows : Grows slack mp grow) (held : Held key) :
    Ensures (ChainedIn slack mp) (fun t => if t.getSlot mp key ≠ .nilobject then .ok (t.getSlot mp key) t
      else newkeyWith mp grow key t) (Placed slack mp) (ChainedIn slack mp) := by
  intro t chained
  by_cases missing : t.getSlot mp key = .nilobject
  · simp only [missing, ne_eq, not_true_eq_false, if_false]
    exact newkeyWith_placed grows held t ⟨chained, chained.missing held missing⟩
  · simp only [ne_eq, missing, not_false_eq_true, if_true]
    exact ⟨chained, storable_getSlot held.isKey.ne_nil held.live⟩

theorem setWith_placed (grows : Grows slack mp grow) (live : key.isDeadkey = false) :
    Ensures (ChainedIn slack mp) (setWith mp grow key) (Placed slack mp) (ChainedIn slack mp) := by
  intro t chained
  by_cases isNil : key = .nil
  · subst isNil
    exact chained.setFlags 0
  have notNil : key.isNil = false := by simpa using isNil
  have chained' := chained.setFlags 0
  unfold setWith
  by_cases missing : t.getSlot mp key = .nilobject
  · cases isNaN : key.isNaN with
    | true =>
      simp only [missing, ne_eq, not_true_eq_false, if_false, notNil, Bool.false_eq_true, if_true]
      exact chained'
    | false =>
      simp only [missing, ne_eq, not_true_eq_false, if_false, notNil, Bool.false_eq_true]
      have held : Held key := ⟨isKey_of_not_isNaN isNil isNaN, live⟩
      exact newkeyWith_placed grows held _ ⟨chained', chained'.missing held (by rwa [setFlags_getSlot])⟩
  · simp only [ne_eq, missing, not_false_eq_true, if_true]
    have storable := @storable_getSlot _ _ mp t key isNil live
    exact ⟨chained', storable⟩

theorem setnumWith_placed (grows : Grows slack mp grow) {k : Int} (inInt : InInt k) :
    Ensures (ChainedIn slack mp) (setnumWith mp grow k) (Placed slack mp) (ChainedIn slack mp) := by
  intro t chained
  simp only [setnumWith, getnum_castNum t inInt]
  exact get_or_newkey_placed grows ⟨isKey_castNum inInt, rfl⟩ t chained

theorem setstrWith_placed (grows : Grows slack mp grow) (s : Nat) :
    Ensures (ChainedIn slack mp) (setstrWith mp grow s) (Placed slack mp) (ChainedIn slack mp) :=
  get_or_newkey_placed grows ⟨isKey_string s, rfl⟩

theorem storeAt_chained {insertion : TableM N Slot} (v : TValue N)
    (placed : Ensures (ChainedIn slack mp) insertion (Placed slack mp) (ChainedIn slack mp)) :
    Ensures (ChainedIn slack mp) (storeAt insertion v) (fun _ => ChainedIn slack mp) (ChainedIn slack mp) :=
  placed.bind fun _ => .modify fun _ found => found.1.write found.2 v

/-! ## Resizing -/

theorem InInt.of_le {a b : Nat} (inInt : InInt b) (le : a ≤ b) : InInt a := by
  unfold InInt at inInt ⊢
  omega

theorem reinsertArray_chained (grows : Grows slack mp grow) (n : Nat) : ∀ i : Nat, InInt ((i + n : Nat) : Int) →
    Ensures (ChainedIn slack mp) (reinsertArray mp grow i n) (fun _ => ChainedIn slack mp) (ChainedIn slack mp) := by
  induction n with
  | zero => exact fun i _ t chained => chained
  | succ n inductionHypothesis =>
    intro i inInt t chained
    have inInt' : InInt ((i : Int) + 1) := InInt.of_le inInt (show i + 1 ≤ i + (n + 1) by omega)
    have rest := inductionHypothesis (i + 1) (by rwa [show i + 1 + n = i + (n + 1) by omega])
    have body : Ensures (ChainedIn slack mp)
        (if !(t.array i).isNil then
          storeAt (setnumWith mp grow ((i : Int) + 1)) (t.array i) >>= fun _ => reinsertArray mp grow (i + 1) n
        else reinsertArray mp grow (i + 1) n)
        (fun _ => ChainedIn slack mp) (ChainedIn slack mp) :=
      .ite (fun _ => (storeAt_chained _ (setnumWith_placed grows inInt')).bind fun _ => rest) fun _ => rest
    exact body t chained

/-- The loop inserts keys that some nodes hold for values. -/
theorem reinsertNodes_chained (grows : Grows slack mp grow) {nold : Nat → Node N}
    (live : ∀ i, (nold i).val ≠ .nil → (nold i).key.isDeadkey = false) (i : Nat) :
    Ensures (ChainedIn slack mp) (reinsertNodes mp grow nold i) (fun _ => ChainedIn slack mp) (ChainedIn slack mp) := by
  induction i with
  | zero => exact fun t chained => chained
  | succ i inductionHypothesis =>
    have body : Ensures (ChainedIn slack mp)
        (if !(nold i).val.isNil then
          storeAt (setWith mp grow (nold i).key) (nold i).val >>= fun _ => reinsertNodes mp grow nold i
        else reinsertNodes mp grow nold i)
        (fun _ => ChainedIn slack mp) (ChainedIn slack mp) :=
      .ite (fun used => (storeAt_chained _ (setWith_placed grows (live i (by simpa using used)))).bind
        fun _ => inductionHypothesis) fun _ => inductionHypothesis
    exact body

theorem EmptyNodes.chained (empty : EmptyNodes t) (inInt : InInt (t.sizearray + slack : Nat))
    (lsizenode_le : t.lsizenode ≤ maxBits) (mp : MainPosition N) : ChainedIn slack mp t := by
  have keysEq : t.keys = fun _ => .nil := by
    funext i
    rw [keys, empty.node]
  have nextEq : t.next = fun _ => none := by
    funext i
    rw [next, empty.node]
  constructor
  case chains =>
    have labelsEq : t.labels id = fun _ => .key .nil := by
      funext i
      simp [labels, keysEq, TValue.isDeadkey]
    rw [nextEq]
    exact ⟨id, labelsEq ▸ Scatter.empty (t.labelling mp)⟩
  case unused =>
    intro i _
    rw [empty.node]
  case isKey =>
    intro i used
    rw [keysEq] at used
    exact absurd rfl used
  case lastfree_le =>
    rw [empty.lastfree]
    split <;> omega
  case dummy =>
    intro dummy
    rw [empty.lastfree, dummy]
    exact le_refl _
  case bare =>
    intro _ i
    rw [keysEq]
  case inInt => exact inInt
  case lsizenode_le => exact lsizenode_le

theorem setnodevector_chained (ok : Bool) (size : Nat) :
    Ensures (ChainedIn slack mp) (setnodevector ok size) (fun _ => ChainedIn slack mp) (ChainedIn slack mp) := by
  intro t chained
  unfold setnodevector
  by_cases none : size = 0
  · rw [if_pos none]
    have empty : EmptyNodes { t with node := fun _ => {}, isDummy := true, lsizenode := 0, lastfree := 0 } :=
      ⟨rfl, rfl, fun _ => rfl⟩
    exact empty.chained chained.inInt (Nat.zero_le _) mp
  · rw [if_neg none]
    by_cases large : maxBits < ceillog2 size
    · simp only [large, if_true]
      exact chained
    · cases ok with
      | false =>
        simp only [large, if_false, Bool.false_eq_true]
        exact chained
      | true =>
        simp only [large, if_false, if_true]
        have empty : EmptyNodes { t with
            node := fun _ => {}, isDummy := false, lsizenode := ceillog2 size,
            lastfree := (2 ^ ceillog2 size : Nat) } :=
          ⟨rfl, by simp [sizenode], by rintro ⟨⟩⟩
        exact empty.chained chained.inInt (Nat.not_lt.1 large) mp

theorem growArray_chained (ok : Bool) {nasize : Nat} (inInt : InInt (nasize + slack : Nat)) :
    Ensures (ChainedIn slack mp) (growArray ok nasize) (fun _ => ChainedIn slack mp) (ChainedIn slack mp) := by
  intro t chained
  rw [growArray_eq]
  by_cases fails : t.sizearray < nasize ∧ ok = false
  · rw [if_pos fails]
    exact chained
  · rw [if_neg fails]
    simp only [grown]
    split
    · exact chained.congr rfl rfl rfl rfl (le_refl _) chained.unused inInt
    · exact chained

theorem shrinkArray_chained (grows : Grows slack mp grow) (ok : Bool) {oldasize nasize : Nat}
    (inInt : InInt (oldasize + slack : Nat)) :
    Ensures (ChainedIn slack mp) (shrinkArray mp grow ok oldasize nasize) (fun _ => ChainedIn slack mp) (ChainedIn slack mp) := by
  intro t chained
  unfold shrinkArray
  by_cases shrinks : nasize < oldasize
  · rw [if_pos shrinks]
    have small : InInt (nasize + slack : Nat) := InInt.of_le inInt (by omega)
    have slice : InInt (nasize + (oldasize - nasize) : Nat) :=
      InInt.of_le inInt (Nat.le_add_right_of_le (by omega))
    have chained' : ChainedIn slack mp { t with sizearray := nasize } :=
      chained.congr rfl rfl rfl rfl (le_refl _) chained.unused small
    have loop : Ensures (ChainedIn slack mp) (reinsertArray mp grow nasize (oldasize - nasize) >>= fun _ =>
        shrinkVector ok nasize) (fun _ => ChainedIn slack mp) (ChainedIn slack mp) := by
      apply (reinsertArray_chained grows (oldasize - nasize) nasize slice).bind
      intro _ t kept
      unfold shrinkVector
      by_cases fails : 0 < nasize ∧ ok = false
      · rw [if_pos fails]
        exact kept
      · rw [if_neg fails]
        exact kept
    exact loop _ chained'
  · rw [if_neg shrinks]
    exact chained

theorem resizeWith_chained (grows : Grows slack mp grow) (mem : Memory) {nasize : Nat} (nhsize : Nat)
    (inInt : InInt (nasize + slack : Nat)) :
    Ensures (ChainedIn slack mp) (resizeWith mp grow mem nasize nhsize) (fun _ => ChainedIn slack mp) (ChainedIn slack mp) := by
  intro t chained
  have live : ∀ i, (t.node i).val ≠ .nil → (t.node i).key.isDeadkey = false := by
    intro i used
    by_contra dead
    exact used (chained.unused (.inr (by simpa [keys] using dead)))
  have loops : Ensures (ChainedIn slack mp) (growArray mem.array nasize >>= fun _ => setnodevector mem.nodes nhsize >>=
      fun _ => shrinkArray mp grow mem.shrink t.sizearray nasize >>= fun _ => reinsertNodes mp grow t.node t.sizenode)
      (fun _ => ChainedIn slack mp) (ChainedIn slack mp) :=
    (growArray_chained mem.array inInt).bind fun _ => (setnodevector_chained mem.nodes nhsize).bind fun _ =>
      (shrinkArray_chained grows mem.shrink chained.inInt).bind fun _ => reinsertNodes_chained grows live t.sizenode
  exact loops t chained

/-! ## Rehashing -/

/-- No key is counted beyond the largest size of an array part. -/
def Counts (nums : Nat → Nat) : Prop := ∀ i, maxBits < i → nums i = 0

theorem countint_counts {nums : Nat → Nat} (counts : Counts nums) (key : TValue N) : Counts (countint key nums).1 := by
  intro i beyond
  unfold countint
  by_cases counted : 0 < arrayindex key ∧ arrayindex key ≤ maxASize
  · have slice : ceillog2 (arrayindex key).toNat ≤ maxBits := by
      apply (ceillog2_le_iff (by omega)).2
      change _ ≤ maxASize
      omega
    simp only [counted, and_self, if_true]
    rw [Function.update_of_ne (by omega)]
    exact counts i beyond
  · simp only [counted, if_false]
    exact counts i beyond

omit [GafqNumber N] in
theorem numusearrayLoop_counts (t : Table N) (slices : Nat) : ∀ (lg i : Nat) (acc : (Nat → Nat) × Nat),
    lg + slices ≤ maxBits + 1 → Counts acc.1 → Counts (t.numusearrayLoop slices lg i acc).1 := by
  induction slices with
  | zero => exact fun _ _ _ _ counts => counts
  | succ slices inductionHypothesis =>
    intro lg i acc bound counts
    unfold numusearrayLoop
    simp only
    split
    · exact counts
    · apply inductionHypothesis _ _ _ (by omega)
      intro j beyond
      simp only
      rw [Function.update_of_ne (by omega)]
      exact counts j beyond

theorem numusehashLoop_counts (t : Table N) (i : Nat) : ∀ acc : (Nat → Nat) × Nat × Nat,
    Counts acc.1 → Counts (t.numusehashLoop i acc).1 := by
  induction i with
  | zero => exact fun _ counts => counts
  | succ i inductionHypothesis =>
    intro acc counts
    unfold numusehashLoop
    simp only
    split
    · exact inductionHypothesis _ counts
    · exact inductionHypothesis _ (countint_counts counts _)

theorem computesizesLoop_le {nums : Nat → Nat} (counts : Counts nums) (narray fuel : Nat) : ∀ i a na n : Nat,
    n ≤ maxASize → (computesizesLoop nums narray fuel i a na n).1 ≤ maxASize := by
  induction fuel with
  | zero => exact fun _ _ _ _ small => small
  | succ fuel inductionHypothesis =>
    intro i a na n small
    unfold computesizesLoop
    split
    · have bound : (if 0 < nums i ∧ 2 ^ i / 2 < a + nums i then 2 ^ i else n) ≤ maxASize := by
        split
        · rename_i fits
          have slice : i ≤ maxBits := by
            by_contra beyond
            have := counts i (by omega)
            omega
          exact Nat.pow_le_pow_right (by decide) slice
        · exact small
      simp only
      split
      · exact bound
      · exact inductionHypothesis _ _ _ _ bound
    · exact small

/-- Whatever a rehash counts, the array part that it asks for is not too large. -/
theorem rehashSizes_le (t : Table N) (ek : TValue N) : (t.rehashSizes ek).1 ≤ maxASize := by
  unfold rehashSizes
  apply computesizesLoop_le
  · apply countint_counts
    apply numusehashLoop_counts
    exact numusearrayLoop_counts t (maxBits + 1) 0 1 _ (by omega) fun _ _ => rfl
  · exact Nat.zero_le _

theorem rehashAndSet_grows (small : slack ≤ 2 ^ maxBits) (mem : Memory) (depth : Nat) :
    Grows slack mp (rehashAndSet mp mem depth) := by
  induction depth with
  | zero => exact fun _ _ t chained => chained
  | succ depth inductionHypothesis =>
    intro key held t chained
    have inInt : InInt ((t.rehashSizes key).1 + slack : Nat) :=
      @InInt.of_le _ (maxASize + 2 ^ maxBits) (by decide) (Nat.add_le_add (rehashSizes_le t key) small)
    have both : Ensures (ChainedIn slack mp)
        (resizeWith mp (rehashAndSet mp mem depth) mem (t.rehashSizes key).1 (t.rehashSizes key).2 >>= fun _ =>
          setWith mp (rehashAndSet mp mem depth) key) (Placed slack mp) (ChainedIn slack mp) :=
      (resizeWith_chained inductionHypothesis mem _ inInt).bind fun _ => setWith_placed inductionHypothesis held.live
    exact both t chained

/-! ## Every table is chained -/

end Table

/-- `TableOp.insertion` with a given depth of rehashes. -/
def TableOp.insertionAt (mp : MainPosition N) (mem : Memory) (depth : Nat) : TableOp N → TableM N Slot
  | .set key _ => Table.setWith mp (Table.rehashAndSet mp mem depth) key
  | .setnum k _ => Table.setnumWith mp (Table.rehashAndSet mp mem depth) k.1
  | .setstr s _ => Table.setstrWith mp (Table.rehashAndSet mp mem depth) s

/-- The key is a value that a program may hold: not a dead one, and not another object at the
address of one that is still in the table. -/
structure TableOp.Proper (t : Table N) (op : TableOp N) : Prop where
  live : op.key.isDeadkey = false
  address : ∀ i a, (t.node i).val ≠ .nil → (t.keys i).gcaddress = some a → op.key.gcaddress = some a → t.keys i = op.key

/-- The tables that a program can come by: a new table, after stores that succeed or end in an error,
after `gafqH_resizearray`, and after the collector has cleared some entries and marked keys dead.  The sizes
that are asked for are of type `int`, also when the slack is added to them. -/
inductive ReachableIn (slack : Nat) (mp : MainPosition N) : Table N → Prop
  | new {mem : Memory} {narray nhash : Nat} {t : Table N} (inInt : InInt (narray + slack : Nat))
      (created : Table.new mem narray nhash = .ok () t) : ReachableIn slack mp t
  | store {t : Table N} (mem : Memory) (depth : Nat) {op : TableOp N} (reachable : ReachableIn slack mp t)
      (proper : op.Proper t) (deep : ∀ t', op.insertionAt mp mem depth t ≠ .error .stuck t') :
      ReachableIn slack mp (finalState (Table.storeAt (op.insertionAt mp mem depth) op.stored) t)
  | resizearray {t : Table N} (mem : Memory) (depth : Nat) {nasize : Nat} (reachable : ReachableIn slack mp t)
      (inInt : InInt (nasize + slack : Nat)) (deep : ∀ t', Table.resizearray mp mem depth nasize t ≠ .error .stuck t') :
      ReachableIn slack mp (finalState (Table.resizearray mp mem depth nasize) t)
  | clear {t : Table N} (slot : Slot) (reachable : ReachableIn slack mp t) : ReachableIn slack mp (t.write slot .nil)
  | removeentry {t : Table N} (i : Nat) (reachable : ReachableIn slack mp t) (empty : (t.node i).val = .nil) :
      ReachableIn slack mp (t.removeentry i)

/-- With this slack, the numbers that `findindex` gives out are of type `int`. -/
abbrev Reachable (mp : MainPosition N) : Table N → Prop := ReachableIn (2 ^ maxBits) mp

namespace Table

variable {slack : Nat} {mp : MainPosition N} {t : Table N}

theorem insertionAt_placed (small : slack ≤ 2 ^ maxBits) (mem : Memory) (depth : Nat) {op : TableOp N} (live : op.key.isDeadkey = false) :
    Ensures (ChainedIn slack mp) (op.insertionAt mp mem depth) (Placed slack mp) (ChainedIn slack mp) := by
  cases op with
  | set key v => exact setWith_placed (rehashAndSet_grows small mem depth) live
  | setnum k v => exact setnumWith_placed (rehashAndSet_grows small mem depth) k.2
  | setstr s v => exact setstrWith_placed (rehashAndSet_grows small mem depth) s

theorem new_chained (mem : Memory) {narray : Nat} (nhash : Nat) (inInt : InInt (narray + slack : Nat))
    (created : Table.new mem narray nhash = .ok () t) : ChainedIn slack mp t := by
  have start : ChainedIn slack mp (empty : Table N) := EmptyNodes.chained ⟨rfl, rfl, fun _ => rfl⟩
    (InInt.of_le inInt (Nat.add_le_add_right (Nat.zero_le narray) slack)) (Nat.zero_le _) mp
  have vector : Ensures (ChainedIn slack mp) (setarrayvector mem.array narray) (fun _ => ChainedIn slack mp) (ChainedIn slack mp) := by
    intro t chained
    unfold setarrayvector
    cases mem.array with
    | false => exact chained
    | true => exact chained.congr rfl rfl rfl rfl (le_refl _) chained.unused inInt
  have made := (vector.bind fun _ => setnodevector_chained mem.nodes nhash) empty start
  have same : (setarrayvector mem.array narray >>= fun _ => setnodevector mem.nodes nhash) (empty : Table N) =
      .ok () t := created
  rw [same] at made
  exact made

theorem ChainedIn.clear (chained : ChainedIn slack mp t) (slot : Slot) : ChainedIn slack mp (t.write slot .nil) := by
  apply chained.congr (by simp) (by simp) (by simp) (by simp) (by simp) ?_ (by simpa using chained.inInt)
  intro i unused
  cases slot with
  | array | nilobject => exact chained.unused unused
  | node j =>
    by_cases here : i = j
    · simp [Table.write, here]
    · simp only [Table.write, Function.update_of_ne here]
      exact chained.unused unused

omit [GafqNumber N] in
theorem removeentry_keys (t : Table N) (i : Nat) :
    (t.removeentry i).keys = Function.update t.keys i (deadkey (t.keys i)) := by
  funext j
  simp only [keys, removeentry, Function.update_apply]
  split <;> rfl

omit [GafqNumber N] in
theorem removeentry_next (t : Table N) (i : Nat) : (t.removeentry i).next = t.next := by
  funext j
  simp only [next, removeentry, Function.update_apply]
  split <;> simp [*]

omit [GafqNumber N] in
theorem removeentry_val (t : Table N) (i j : Nat) : ((t.removeentry i).node j).val = (t.node j).val := by
  simp only [removeentry, Function.update_apply]
  split <;> simp [*]

omit [GafqNumber N] in
@[simp] theorem deadkey_eq_nil {key : TValue N} : deadkey key = .nil ↔ key = .nil := by
  cases key <;> simp [deadkey]

/-- The chain of a node is remembered when its key is marked dead. -/
theorem ChainedIn.removeentry (chained : ChainedIn slack mp t) {i : Nat} (empty : (t.node i).val = .nil) :
    ChainedIn slack mp (t.removeentry i) := by
  obtain ⟨home, scatter⟩ := chained.chains
  have keysEq := t.removeentry_keys i
  constructor
  case chains =>
    have size : (t.removeentry i).labelling mp = t.labelling mp := labelling_congr rfl
    rw [size, removeentry_next]
    have labelsEq : ∀ j, (t.removeentry i).labels (Function.update home i ((t.labelling mp).pos (t.labels home i))) j =
        t.labels home j ∨ t.keys j ≠ .nil ∧
          (t.removeentry i).labels (Function.update home i ((t.labelling mp).pos (t.labels home i))) j =
            .dead ((t.labelling mp).pos (t.labels home j)) := by
      intro j
      unfold labels
      rw [keysEq]
      by_cases here : j = i
      · subst here
        simp only [Function.update_self]
        cases t.keys j with
        | string | object | deadkey => exact .inr ⟨nofun, rfl⟩
        | nil | boolean | lightuserdata | number => exact .inl rfl
      · simp only [Function.update_of_ne here]
        exact .inl trivial
    refine ⟨Function.update home i ((t.labelling mp).pos (t.labels home i)), scatter.relabel ?_ ?_ ?_⟩
    · intro j
      obtain same | ⟨-, forgotten⟩ := labelsEq j
      · rw [same]
      · rw [forgotten]
        exact Nat.mod_eq_of_lt ((t.labelling mp).pos_lt _)
    · intro j
      obtain same | ⟨used, forgotten⟩ := labelsEq j
      · rw [same]
      · rw [forgotten]
        constructor
        · intro free
          cases free
        · intro free
          exact absurd free (labels_ne_nil.2 used)
    · intro j k equal
      obtain same | ⟨-, forgotten⟩ := labelsEq j
      · obtain same' | ⟨-, forgotten⟩ := labelsEq k
        · rwa [same, same'] at equal
        · rw [forgotten] at equal
          cases label : t.labels home j <;> rw [same, label] at equal <;> cases equal
      · rw [forgotten] at equal
        cases equal
  case unused =>
    intro j unused
    rw [removeentry_val]
    by_cases here : j = i
    · rw [here]
      exact empty
    · rw [keysEq, Function.update_of_ne here] at unused
      exact chained.unused unused
  case isKey =>
    intro j used
    rw [keysEq] at used ⊢
    by_cases here : j = i
    · subst here
      rw [Function.update_self] at used ⊢
      have isKey := chained.isKey (mt deadkey_eq_nil.2 used)
      refine ⟨used, ?_⟩
      have self := isKey.self
      cases same : t.keys j <;> rw [same] at self <;> simp_all [deadkey, rawequalObj]
    · rw [Function.update_of_ne here] at used ⊢
      exact chained.isKey used
  case lastfree_le => exact chained.lastfree_le
  case dummy => exact chained.dummy
  case bare =>
    intro dummy j
    rw [keysEq]
    by_cases here : j = i
    · rw [here, Function.update_self, chained.bare dummy]
      rfl
    · rw [Function.update_of_ne here, chained.bare dummy]
  case inInt => exact chained.inInt
  case lsizenode_le => exact chained.lsizenode_le

end Table

theorem ReachableIn.chained {slack : Nat} (small : slack ≤ 2 ^ maxBits) {mp : MainPosition N} {t : Table N}
    (reachable : ReachableIn slack mp t) : Table.ChainedIn slack mp t := by
  induction reachable with
  | new inInt created => exact Table.new_chained _ _ inInt created
  | store mem depth _ proper _ inductionHypothesis =>
    exact (Table.storeAt_chained _ (Table.insertionAt_placed small mem depth proper.live)).finalState inductionHypothesis
  | resizearray mem depth _ inInt _ inductionHypothesis =>
    rename_i t nasize _ _
    have resized : Ensures (Table.ChainedIn slack mp) (Table.resizearray mp mem depth nasize)
        (fun _ => Table.ChainedIn slack mp) (Table.ChainedIn slack mp) :=
      fun t chained => Table.resizeWith_chained (Table.rehashAndSet_grows small mem depth) mem _ inInt t chained
    exact resized.finalState inductionHypothesis
  | clear slot _ inductionHypothesis => exact inductionHypothesis.clear slot
  | removeentry i _ empty inductionHypothesis => exact inductionHypothesis.removeentry empty

theorem Reachable.chained {mp : MainPosition N} {t : Table N} (reachable : Reachable mp t) : Table.Chained mp t :=
  ReachableIn.chained (le_refl _) reachable

end Gafq
