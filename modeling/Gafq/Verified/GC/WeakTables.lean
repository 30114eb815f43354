import Gafq.Verified.GC.FullCollections
import Gafq.Verified.TableRefinement

/-! # What is removed from weak tables

When marking ends, all that the roots reach by strong references has been marked.  `cleartable` decides
by the marks, but for the values of entries it also looks at the bit that says that a userdata has been
finalized.  The bit stays when the finalizer makes the userdata reachable again, and it is looked at
in tables whose values are not weak: these are the entries that are removed without need.
-/

namespace Gafq.GC.State

variable {N : Type} {s s' t : State N} {o p r : GCRef}

/-! ## Entries -/

/-- A slot of the array part or a node of a table. -/
inductive Place where
  | array (i : Nat)
  | node (i : Nat)

def Place.Inside (h : Gafq.Table N) : Place → Prop
  | .array i => i < h.sizearray
  | .node i => i < h.sizenode

def valueAt (h : Gafq.Table N) : Place → TValue N
  | .array i => h.array i
  | .node i => (h.node i).val

/-- The key and the value of an entry, those of them that the table holds in weak positions. -/
def weakMembers (s : State N) (a : Nat) : Place → List (TValue N)
  | .array i => if (s.mode a).2 then [(s.table a).h.array i] else []
  | .node i =>
    (if (s.mode a).1 then [((s.table a).h.node i).key] else []) ++
      if (s.mode a).2 then [((s.table a).h.node i).val] else []

/-- All that the table holds in weak positions at this place is strongly reachable. -/
def HoldsReachable (s : State N) (a : Nat) (place : Place) : Prop :=
  ∀ v ∈ s.weakMembers a place, ∀ r, gcvalue v = some r → s.StronglyReachable r

/-- The loop of `cleartable` at the end of marking. -/
def clearweak (s : State N) : State N := s.weak.foldl cleartable s

/-- Only entries that hold something in a weak position which is not strongly reachable are removed. -/
def RemovesUnreachable (s : State N) : Prop :=
  ∀ a place, place.Inside (s.table a).h → valueAt (s.table a).h place ≠ .nil →
    valueAt (s.clearweak.table a).h place = .nil → ¬ s.HoldsReachable a place

/-- `cleartable` looks at the value of an array slot if the table was traversed with weak values. -/
def LooksAt (s : State N) (a : Nat) : Place → Prop
  | .array _ => (s.table a).weakvalue = true
  | .node _ => True

/-- A weak table has an entry whose value is a userdata that has been finalized, in this cycle or in
an earlier one, and what it holds in weak positions there is strongly reachable. -/
def HoldsFinalized (s : State N) : Prop :=
  ∃ a place u, .table a ∈ s.weak ∧ place.Inside (s.table a).h ∧ s.LooksAt a place ∧
    valueAt (s.table a).h place = .object .userdata u ∧ (s.udata u).finalized = true ∧ s.HoldsReachable a place

/-! ## What is strongly reachable has been marked -/

/-- A gray object has been traversed or needs no traversal. -/
theorem Remarked.finished (remarked : Remarked nothing [] s) (isGray : s.colour o = some .gray) : s.Finished o := by
  obtain inGray | isLeft | finished := remarked.marking.gray isGray
  · rw [remarked.gray] at inGray
    cases inGray
  · cases isLeft
  · exact finished

theorem Remarked.strong (remarked : Remarked nothing [] s) (nonWhite : s.NonWhite o) (strong : s.StrongRefers o r) :
    s.NonWhite r := by
  obtain isGray | isBlack := nonWhite
  · obtain ⟨a, rfl, done⟩ | ⟨a, rfl, clean⟩ | isString | ⟨-, clean⟩ := remarked.finished isGray
    · obtain isMetatable | ⟨isStrong, i, inside, isRef⟩ | ⟨i, inside, used, key | value⟩ := strong
      · obtain ⟨m, same, rfl⟩ := Option.map_eq_some_iff.1 isMetatable
        exact done.metatable m same
      · exact done.array (done.mode.2 isStrong) i inside r isRef
      · exact done.node i inside used r (.inl (key.imp_left done.mode.1))
      · exact done.node i inside used r (.inr (value.imp_left done.mode.2))
    · exact clean r strong.refers
    · exact absurd strong.refers (not_refers_of_isString isString)
    · exact clean r strong.refers
  · exact (remarked.marking.black isBlack (.inl strong.refers)).resolve_right id

theorem AllMarked.stronglyReachable (allMarked : s.AllMarked) (reachable : s.StronglyReachable r) : s.NonWhite r := by
  obtain ⟨root, isRoot, path⟩ := reachable
  induction path with
  | refl => exact allMarked.root isRoot
  | tail _ strong inductionHypothesis => exact allMarked.remarked.strong inductionHypothesis strong

/-! ## What the loop removes -/

/-- The test that `cleartable` makes for one entry. -/
def clears (s : State N) (a : Nat) : Place → Bool
  | .array i => (s.table a).weakvalue && s.iscleared ((s.table a).h.array i) false
  | .node i =>
    !((s.table a).h.node i).val.isNil &&
      (s.iscleared ((s.table a).h.node i).key true || s.iscleared ((s.table a).h.node i).val false)

/-- The state in the loop, when it has been through `tables`. -/
structure Clears (tables : List GCRef) (s t : State N) : Prop where
  iscleared : ∀ v iskey, t.iscleared v iskey = s.iscleared v iskey
  weakvalue : ∀ a, (t.table a).weakvalue = (s.table a).weakvalue
  array : ∀ a i, (t.table a).h.array i = (s.table a).h.array i ∨
    (t.table a).h.array i = .nil ∧ .table a ∈ tables ∧ s.clears a (.array i) = true
  node : ∀ a i, (t.table a).h.node i = (s.table a).h.node i ∨
    ((t.table a).h.node i).val = .nil ∧ .table a ∈ tables ∧ s.clears a (.node i) = true
  removed : ∀ a place, .table a ∈ tables → s.clears a place = true → valueAt (t.table a).h place = .nil

theorem iscleared_markstring (s : State N) (v : TValue N) : (s.markstring v).iscleared = s.iscleared := by
  cases v with
  | string a =>
    have kept : ∀ {r}, ¬ r.IsString → (s.markstring (.string a)).iswhite r = s.iswhite r := fun {r} notString => by
      apply iswhite_congr
      apply colour_paint_of_ne
      rintro rfl
      exact notString trivial
    funext v iskey
    unfold State.iscleared
    cases gcvalue v with
    | none => rfl
    | some r =>
      cases r with
      | string => rfl
      | udata u =>
        simp only [@kept (.udata u) id]
        rfl
      | proto | closure | table | upval | thread => exact kept id
  | nil | boolean | lightuserdata | number | object | deadkey => rfl

theorem iscleared_markstrings (vs : List (TValue N)) : ∀ s : State N, (vs.foldl markstring s).iscleared = s.iscleared := by
  induction vs with
  | nil => exact fun _ => rfl
  | cons v vs inductionHypothesis => exact fun s => (inductionHypothesis _).trans (iscleared_markstring s v)

theorem cleartable_table (s : State N) (b : Nat) :
    (s.cleartable (.table b)).table = Function.update s.table b (s.cleared b) := by
  have marks := (markstrings_marks (s.lookedAt (s.table b)) s).1
  show Function.update _ b _ = _
  rw [marks.table]
  rfl

theorem cleartable_iscleared (s : State N) (b : Nat) : (s.cleartable (.table b)).iscleared = s.iscleared :=
  iscleared_markstrings (s.lookedAt (s.table b)) s

theorem Clears.cleartable {tables : List GCRef} {b : Nat} (before : Clears tables s t) :
    Clears (tables ++ [.table b]) s (t.cleartable (.table b)) := by
  have table := cleartable_table t b
  have other : ∀ {a}, a ≠ b → (t.cleartable (.table b)).table a = t.table a := fun apart => by
    rw [table, Function.update_of_ne apart]
  have self : (t.cleartable (.table b)).table b = t.cleared b := by rw [table, Function.update_self]
  have member : GCRef.table b ∈ tables ++ [.table b] := by simp
  have earlier : ∀ {a}, GCRef.table a ∈ tables → GCRef.table a ∈ tables ++ [.table b] := List.mem_append_left _
  -- what the test says of an entry that is still there
  have arrayTest : ∀ {i}, (t.table b).h.array i = (s.table b).h.array i →
      ((t.table b).weakvalue && t.iscleared ((t.table b).h.array i) false) = s.clears b (.array i) := fun same => by
    rw [same, before.weakvalue, before.iscleared]
    rfl
  have nodeTest : ∀ {i}, (t.table b).h.node i = (s.table b).h.node i →
      (!((t.table b).h.node i).val.isNil && (t.iscleared ((t.table b).h.node i).key true ||
        t.iscleared ((t.table b).h.node i).val false)) = s.clears b (.node i) := fun same => by
    rw [same, before.iscleared, before.iscleared]
    rfl
  refine ⟨fun v iskey => ?_, fun a => ?_, fun a i => ?_, fun a i => ?_, fun a place listed test => ?_⟩
  · rw [cleartable_iscleared]
    exact before.iscleared v iskey
  · by_cases same : a = b
    · subst same
      rw [self]
      exact before.weakvalue a
    · rw [other same]
      exact before.weakvalue a
  · by_cases same : a = b
    · subst same
      rw [self]
      obtain kept | ⟨isNil, listed, test⟩ := before.array a i
      · simp only [cleared, clearedTable, arrayTest kept]
        split
        · next test => exact .inr ⟨rfl, member, test⟩
        · exact .inl kept
      · refine .inr ⟨?_, member, test⟩
        simp only [cleared, clearedTable, isNil, ite_self]
    · rw [other same]
      exact (before.array a i).imp id fun removed => ⟨removed.1, earlier removed.2.1, removed.2.2⟩
  · by_cases same : a = b
    · subst same
      rw [self]
      obtain kept | ⟨isNil, listed, test⟩ := before.node a i
      · simp only [cleared, clearedTable, nodeTest kept]
        split
        · next test => exact .inr ⟨rfl, member, test⟩
        · exact .inl kept
      · refine .inr ⟨?_, member, test⟩
        simp [cleared, clearedTable, isNil, TValue.isNil]
    · rw [other same]
      exact (before.node a i).imp id fun removed => ⟨removed.1, earlier removed.2.1, removed.2.2⟩
  · by_cases same : a = b
    · subst same
      rw [self]
      cases place with
      | array i =>
        obtain kept | ⟨isNil, -⟩ := before.array a i
        · simp only [valueAt, cleared, clearedTable, arrayTest kept, test, if_true]
        · simp [valueAt, cleared, clearedTable, isNil]
      | node i =>
        obtain kept | ⟨isNil, -⟩ := before.node a i
        · simp only [valueAt, cleared, clearedTable, nodeTest kept, test, if_true]
        · simp [valueAt, cleared, clearedTable, isNil, TValue.isNil]
    · rw [other same]
      apply before.removed a place _ test
      simpa [same] using listed

theorem clears_nil (s : State N) : Clears [] s s :=
  ⟨fun _ _ => rfl, fun _ => rfl, fun _ _ => .inl rfl, fun _ _ => .inl rfl, nofun⟩

/-- Only tables are changed. -/
theorem Clears.cons {tables : List GCRef} (before : Clears tables s t) : Clears (tables ++ [o]) s (t.cleartable o) := by
  cases o with
  | table b => exact before.cleartable
  | string | udata | proto | closure | upval | thread =>
    have earlier : ∀ {p : GCRef} (o : GCRef), p ∈ tables → p ∈ tables ++ [o] := fun _ => List.mem_append_left _
    refine ⟨before.iscleared, before.weakvalue, fun a i => ?_, fun a i => ?_, fun a place listed test => ?_⟩
    · exact (before.array a i).imp id fun removed => ⟨removed.1, earlier _ removed.2.1, removed.2.2⟩
    · exact (before.node a i).imp id fun removed => ⟨removed.1, earlier _ removed.2.1, removed.2.2⟩
    · apply before.removed a place _ test
      simpa using listed

theorem cleartables_clears (tables : List GCRef) : ∀ {cleared : List GCRef} {t : State N}, Clears cleared s t →
    Clears (cleared ++ tables) s (tables.foldl cleartable t) := by
  induction tables with
  | nil =>
    intro cleared t before
    simpa using before
  | cons o tables inductionHypothesis =>
    intro cleared t before
    simpa using inductionHypothesis (@Clears.cons _ _ _ o _ before)

theorem clearweak_clears (s : State N) : Clears s.weak s s.clearweak := cleartables_clears s.weak (clears_nil s)

/-- An entry is removed if and only if it is in a table on the list and passes the test. -/
theorem removed_iff {a : Nat} {place : Place} (used : valueAt (s.table a).h place ≠ .nil) :
    valueAt (s.clearweak.table a).h place = .nil ↔ .table a ∈ s.weak ∧ s.clears a place = true := by
  have after := clearweak_clears s
  refine ⟨fun isNil => ?_, fun both => after.removed a place both.1 both.2⟩
  cases place with
  | array i =>
    obtain kept | removed := after.array a i
    · rw [valueAt, kept] at isNil
      exact absurd isNil used
    · exact removed.2
  | node i =>
    obtain kept | removed := after.node a i
    · rw [valueAt, kept] at isNil
      exact absurd isNil used
    · exact removed.2

/-! ## Why an entry is removed -/

/-- A value that is cleared is white, or it is a userdata that has been finalized. -/
theorem of_iscleared {v : TValue N} {iskey : Bool} (cleared : s.iscleared v iskey = true) :
    (∃ r, gcvalue v = some r ∧ s.iswhite r = true) ∨
      iskey = false ∧ ∃ u, v = .object .userdata u ∧ (s.udata u).finalized = true := by
  unfold iscleared at cleared
  split at cleared
  · cases cleared
  · cases cleared
  · next u isRef =>
    rw [Bool.or_eq_true, Bool.and_eq_true, Bool.not_eq_true'] at cleared
    refine cleared.imp (fun isWhite => ⟨_, isRef, isWhite⟩) fun both => ⟨both.1, u, ?_, both.2⟩
    cases v with
    | object tt b => cases tt <;> simp_all [gcvalue]
    | nil | boolean | lightuserdata | number | string | deadkey => simp [gcvalue] at isRef
  · next o _ _ isRef => exact .inl ⟨o, isRef, cleared⟩

/-- Where a listed table holds a white object, it holds it in a weak position. -/
theorem Remarked.weak_of_white {a i : Nat} (remarked : Remarked nothing [] s) (listed : .table a ∈ s.weak)
    (white : s.iswhite r = true) :
    (i < (s.table a).h.sizearray → gcvalue ((s.table a).h.array i) = some r → (s.mode a).2 = true) ∧
    (i < (s.table a).h.sizenode → ((s.table a).h.node i).val ≠ .nil →
      (gcvalue ((s.table a).h.node i).key = some r → (s.mode a).1 = true) ∧
      (gcvalue ((s.table a).h.node i).val = some r → (s.mode a).2 = true)) := by
  have nonWhite := (remarked.marking.listed (.inr (.inr listed))).2
  have marked : ∀ {r}, s.StrongRefers (.table a) r → s.NonWhite r := remarked.strong nonWhite
  have contra : ∀ {r}, s.iswhite r = true → ¬ s.NonWhite r := fun white nonWhite => by
    rw [nonWhite.not_white] at white
    cases white
  refine ⟨fun inside isRef => ?_, fun inside used => ⟨fun isRef => ?_, fun isRef => ?_⟩⟩
  · by_contra strong
    rw [Bool.not_eq_true] at strong
    exact contra white (marked (.inr (.inl ⟨strong, i, inside, isRef⟩)))
  · by_contra strong
    rw [Bool.not_eq_true] at strong
    exact contra white (marked (.inr (.inr ⟨i, inside, used, .inl ⟨strong, isRef⟩⟩)))
  · by_contra strong
    rw [Bool.not_eq_true] at strong
    exact contra white (marked (.inr (.inr ⟨i, inside, used, .inr ⟨strong, isRef⟩⟩)))

/-- An entry is removed without need only for the finalized userdata that is its value. -/
theorem AllMarked.finalized_of_clears {a : Nat} {place : Place} (allMarked : s.AllMarked) (listed : .table a ∈ s.weak)
    (inside : place.Inside (s.table a).h) (used : valueAt (s.table a).h place ≠ .nil) (test : s.clears a place = true)
    (reachable : s.HoldsReachable a place) :
    s.LooksAt a place ∧ ∃ u, valueAt (s.table a).h place = .object .userdata u ∧ (s.udata u).finalized = true := by
  have contra : ∀ {v r}, v ∈ s.weakMembers a place → gcvalue v = some r → s.iswhite r ≠ true := fun member isRef white => by
    rw [(allMarked.stronglyReachable (reachable _ member _ isRef)).not_white] at white
    cases white
  cases place with
  | array i =>
    obtain ⟨isWeak, cleared⟩ := Bool.and_eq_true_iff.1 test
    refine ⟨isWeak, ?_⟩
    obtain ⟨r, isRef, white⟩ | ⟨-, isFinalized⟩ := of_iscleared cleared
    · have mode := (allMarked.remarked.weak_of_white listed white).1 inside isRef
      exact absurd white (contra (by simp [weakMembers, mode]) isRef)
    · exact isFinalized
  | node i =>
    refine ⟨trivial, ?_⟩
    obtain ⟨-, cleared⟩ := Bool.and_eq_true_iff.1 test
    rw [Bool.or_eq_true] at cleared
    obtain key | value := cleared
    · obtain ⟨r, isRef, white⟩ | ⟨isValue, -⟩ := of_iscleared key
      · have mode := ((allMarked.remarked.weak_of_white listed white).2 inside used).1 isRef
        exact absurd white (contra (by simp [weakMembers, mode]) isRef)
      · cases isValue
    · obtain ⟨r, isRef, white⟩ | ⟨-, isFinalized⟩ := of_iscleared value
      · have mode := ((allMarked.remarked.weak_of_white listed white).2 inside used).2 isRef
        exact absurd white (contra (by simp [weakMembers, mode]) isRef)
      · exact isFinalized

/-- A finalized userdata that is a value is always cleared. -/
theorem clears_of_finalized {a u : Nat} {place : Place} (looksAt : s.LooksAt a place)
    (value : valueAt (s.table a).h place = .object .userdata u) (finalized : (s.udata u).finalized = true) :
    s.clears a place = true := by
  cases place with
  | array i =>
    have value : (s.table a).h.array i = .object .userdata u := value
    have looksAt : (s.table a).weakvalue = true := looksAt
    simp [clears, value, looksAt, iscleared, gcvalue, finalized]
  | node i =>
    have value : ((s.table a).h.node i).val = .object .userdata u := value
    simp [clears, value, iscleared, gcvalue, finalized, TValue.isNil]

section Runs

variable [GafqNumber N]

/-- When marking ends in a run, the entries that are removed from weak tables are those that hold
something unreachable in a weak position, unless such a table has a finalized userdata as the value
of an entry that should stay. -/
theorem removesUnreachable_iff (occurs : Occurs s) (phase : s.gcstate = .propagate) :
    s.markRest.RemovesUnreachable ↔ ¬ s.markRest.HoldsFinalized := by
  have underway := occurs.underway phase
  have allMarked := (markRest_allMarked underway.sound underway.marking id underway.waiting underway.marked
    underway.present).1
  generalize s.markRest = s₁ at allMarked ⊢
  constructor
  · rintro onlyUnreachable ⟨a, place, u, listed, inside, looksAt, value, finalized, reachable⟩
    have used : valueAt (s₁.table a).h place ≠ .nil := by
      rw [value]
      nofun
    apply onlyUnreachable a place inside used _ reachable
    exact (removed_iff used).2 ⟨listed, clears_of_finalized looksAt value finalized⟩
  · intro noneKept a place inside used isNil reachable
    obtain ⟨listed, test⟩ := (removed_iff used).1 isNil
    obtain ⟨looksAt, u, value, finalized⟩ := allMarked.finalized_of_clears listed inside used test reachable
    exact noneKept ⟨a, place, u, listed, inside, looksAt, value, finalized, reachable⟩

end Runs

/-! ## A userdata that its finalizer makes reachable again -/

def memory : Memory := { array := true, nodes := true }

/-- The metatable in slot 1, a finalizer and its name above. -/
def named : State Int := ((newstate.createtable memory 0 2 2).pushlstr (chars "__gc") 100).pushcclosure 0 0 0

def moded : State Int := ((named.rawset intPosition memory 2).pushlstr (chars "__mode") 100).pushlstr (chars "k") 100

/-- There is a table with weak keys in slot 2, and a userdata above. -/
def weakKeyed : State Int :=
  (((moded.rawset intPosition memory 2).createtable memory 0 1 3).setmetatableTable 3 (some 2)).newuserdata 0 0

/-- The userdata is a key of the table, and a second userdata has been created. -/
def oneKey : State Int := (weakKeyed.settable intPosition memory 3 (.object .userdata 0) (.number 5) false).newuserdata 0 1

/-- The second userdata is a key too, but no longer on the stack; the roots have been marked. -/
def keysMarked : State Int :=
  ((oneKey.settable intPosition memory 3 (.object .userdata 1) (.number 6) false).settop 0 4).singlestep

/-- The last reference to the userdata of `weakKeyed`, which has a finalizer, is gone. -/
def dropped : State Int := (weakKeyed.setmetatableUdata 0 (some 2)).settop 0 3

/-- The finalizer has been called, with the userdata in slot 4. -/
def finalized : State Int := singlestep^[74] dropped

/-- The finalizer has stored its argument in the table, and the next mark phase is at its end. -/
def markedAgain : State Int :=
  singlestep^[8] (finalized.settable intPosition memory 3 (.number 5) (.object .userdata 0) false)

set_option maxRecDepth 4000 in
theorem named_run : Run newstate named := by
  obtain ⟨freshTable, freshString, isGlobals, freshClosure⟩ :
      (newstate : State Int).marked (.table 2) = none ∧
      (newstate.createtable memory 0 2 2 : State Int).marked (.string 100) = none ∧
      gcvalue (((newstate.createtable memory 0 2 2 : State Int).pushlstr (chars "__gc") 100).thread
        ((newstate.createtable memory 0 2 2 : State Int).pushlstr (chars "__gc") 100).running).gt = some (.table 0) ∧
      ((newstate.createtable memory 0 2 2 : State Int).pushlstr (chars "__gc") 100).marked (.closure 0) = none := by
    decide
  have created : Run newstate (newstate.createtable memory 0 2 2 : State Int) := .single (.mutates (.createtable _ 0 2 freshTable))
  have string := created.tail (.mutates (.pushlstr (chars "__gc") freshString))
  exact string.tail (.mutates (.pushcclosure (n := 0) (reachable_globals isGlobals) (Nat.zero_le _) freshClosure))

set_option maxRecDepth 4000 in
theorem moded_run : Run newstate moded := by
  obtain ⟨inUse, isTable, two, freshMode, freshKey⟩ :
      1 < (named.thread named.running).top ∧ gcvalue ((named.thread named.running).stack 1) = some (.table 2) ∧
      2 ≤ (named.thread named.running).top ∧ (named.rawset intPosition memory 2).marked (.string 100) = none ∧
      ((named.rawset intPosition memory 2).pushlstr (chars "__mode") 100).marked (.string 100) = none := by
    decide
  have stored := named_run.tail (.mutates (.rawset intPosition memory (reachable_slot inUse isTable) two))
  have mode := stored.tail (.mutates (.pushlstr (chars "__mode") freshMode))
  exact mode.tail (.mutates (.pushlstr (chars "k") freshKey))

set_option maxRecDepth 4000 in
theorem weakKeyed_run : Run newstate weakKeyed := by
  obtain ⟨inUse, isTable, two, freshTable, inUse₁, isTable₁, inUse₂, isTable₂, isGlobals, freshUdata⟩ :
      1 < (moded.thread moded.running).top ∧ gcvalue ((moded.thread moded.running).stack 1) = some (.table 2) ∧
      2 ≤ (moded.thread moded.running).top ∧ (moded.rawset intPosition memory 2).marked (.table 3) = none ∧
      1 < (((moded.rawset intPosition memory 2).createtable memory 0 1 3).thread
        ((moded.rawset intPosition memory 2).createtable memory 0 1 3).running).top ∧
      gcvalue ((((moded.rawset intPosition memory 2).createtable memory 0 1 3).thread
        ((moded.rawset intPosition memory 2).createtable memory 0 1 3).running).stack 1) = some (.table 2) ∧
      2 < (((moded.rawset intPosition memory 2).createtable memory 0 1 3).thread
        ((moded.rawset intPosition memory 2).createtable memory 0 1 3).running).top ∧
      gcvalue ((((moded.rawset intPosition memory 2).createtable memory 0 1 3).thread
        ((moded.rawset intPosition memory 2).createtable memory 0 1 3).running).stack 2) = some (.table 3) ∧
      gcvalue ((((moded.rawset intPosition memory 2).createtable memory 0 1 3).setmetatableTable 3 (some 2)).thread
        (((moded.rawset intPosition memory 2).createtable memory 0 1 3).setmetatableTable 3 (some 2)).running).gt =
        some (.table 0) ∧
      (((moded.rawset intPosition memory 2).createtable memory 0 1 3).setmetatableTable 3 (some 2)).marked (.udata 0) =
        none := by
    decide
  have stored := moded_run.tail (.mutates (.rawset intPosition memory (reachable_slot inUse isTable) two))
  have created := stored.tail (.mutates (.createtable memory 0 1 freshTable))
  have metatable : ∀ m ∈ some 2, (((moded.rawset intPosition memory 2).createtable memory 0 1 3)).Reachable (.table m) :=
    fun m same => Option.some.inj same ▸ reachable_slot inUse₁ isTable₁
  have isWeak := created.tail (.mutates (.setmetatableTable (reachable_slot inUse₂ isTable₂) metatable))
  exact isWeak.tail (.mutates (.newuserdata (reachable_globals isGlobals) freshUdata))

set_option maxRecDepth 4000 in
theorem oneKey_run : Run newstate oneKey := by
  obtain ⟨inUse₂, isTable, inUse₃, isUdata, isGlobals, fresh⟩ :
      2 < (weakKeyed.thread weakKeyed.running).top ∧ gcvalue ((weakKeyed.thread weakKeyed.running).stack 2) = some (.table 3) ∧
      3 < (weakKeyed.thread weakKeyed.running).top ∧
      gcvalue ((weakKeyed.thread weakKeyed.running).stack 3) = some (.udata 0) ∧
      gcvalue ((weakKeyed.settable intPosition memory 3 (.object .userdata 0) (.number 5) false).thread
        (weakKeyed.settable intPosition memory 3 (.object .userdata 0) (.number 5) false).running).gt = some (.table 0) ∧
      (weakKeyed.settable intPosition memory 3 (.object .userdata 0) (.number 5) false).marked (.udata 1) = none := by
    decide +kernel
  have isKey : weakKeyed.Accessible (.object .userdata 0) := fun isRef => by
    cases isRef
    exact reachable_slot inUse₃ isUdata
  have isValue : weakKeyed.Accessible (.number 5) := fun isRef => nomatch isRef
  have stored := weakKeyed_run.tail (.mutates (.settable intPosition memory false (reachable_slot inUse₂ isTable) isKey isValue))
  exact stored.tail (.mutates (.newuserdata (reachable_globals isGlobals) fresh))

set_option maxRecDepth 4000 in
theorem keysMarked_run : Run newstate keysMarked := by
  obtain ⟨inUse₂, isTable, inUse₄, isUdata, isMain, exposed⟩ :
      2 < (oneKey.thread oneKey.running).top ∧ gcvalue ((oneKey.thread oneKey.running).stack 2) = some (.table 3) ∧
      4 < (oneKey.thread oneKey.running).top ∧ gcvalue ((oneKey.thread oneKey.running).stack 4) = some (.udata 1) ∧
      (oneKey.settable intPosition memory 3 (.object .userdata 1) (.number 6) false).mainthread = 0 ∧
      4 ≤ ((oneKey.settable intPosition memory 3 (.object .userdata 1) (.number 6) false).thread 0).exposed := by
    decide +kernel
  have isKey : oneKey.Accessible (.object .userdata 1) := fun isRef => by
    cases isRef
    exact reachable_slot inUse₄ isUdata
  have isValue : oneKey.Accessible (.number 6) := fun isRef => nomatch isRef
  have stored := oneKey_run.tail (.mutates (.settable intPosition memory false (reachable_slot inUse₂ isTable) isKey isValue))
  exact (stored.tail (.mutates (.settop (reachable_main isMain) exposed))).tail .singlestep

/-- Of the two entries with a userdata as key, the one whose key is not on the stack is removed. -/
theorem removesUnreachable_keysMarked : keysMarked.markRest.weak = [.table 3] ∧ keysMarked.markRest.RemovesUnreachable ∧
    valueAt (keysMarked.markRest.clearweak.table 3).h (.node 0) = .number 5 ∧
    valueAt (keysMarked.markRest.table 3).h (.node 1) = .number 6 ∧
    valueAt (keysMarked.markRest.clearweak.table 3).h (.node 1) = .nil := by
  obtain ⟨phase, weak, strong, size, first, second, stays, goes⟩ :
      keysMarked.gcstate = .propagate ∧ keysMarked.markRest.weak = [.table 3] ∧
      (keysMarked.markRest.table 3).weakvalue = false ∧ (keysMarked.markRest.table 3).h.sizenode = 2 ∧
      valueAt (keysMarked.markRest.table 3).h (.node 0) = .number 5 ∧
      valueAt (keysMarked.markRest.table 3).h (.node 1) = .number 6 ∧
      valueAt (keysMarked.markRest.clearweak.table 3).h (.node 0) = .number 5 ∧
      valueAt (keysMarked.markRest.clearweak.table 3).h (.node 1) = .nil := by
    decide +kernel
  refine ⟨weak, (removesUnreachable_iff (.run keysMarked_run.fullRun) phase).2 ?_, stays, second, goes⟩
  rintro ⟨a, place, u, listed, inside, looksAt, value, -⟩
  rw [weak, List.mem_singleton] at listed
  cases listed
  cases place with
  | array i => exact absurd looksAt (by simp [LooksAt, strong])
  | node i =>
    have inside : i < (keysMarked.markRest.table 3).h.sizenode := inside
    rw [size] at inside
    obtain rfl | rfl : i = 0 ∨ i = 1 := by omega
    · rw [first] at value
      cases value
    · rw [second] at value
      cases value

set_option maxRecDepth 4000 in
theorem dropped_run : Run newstate dropped := by
  obtain ⟨inUse₁, isTable, inUse₃, isUdata, isMain, exposed⟩ :
      1 < (weakKeyed.thread weakKeyed.running).top ∧ gcvalue ((weakKeyed.thread weakKeyed.running).stack 1) = some (.table 2) ∧
      3 < (weakKeyed.thread weakKeyed.running).top ∧
      gcvalue ((weakKeyed.thread weakKeyed.running).stack 3) = some (.udata 0) ∧
      (weakKeyed.setmetatableUdata 0 (some 2)).mainthread = 0 ∧
      3 ≤ ((weakKeyed.setmetatableUdata 0 (some 2)).thread 0).exposed := by
    decide
  have metatable : ∀ m ∈ some 2, weakKeyed.Reachable (.table m) :=
    fun m same => Option.some.inj same ▸ reachable_slot inUse₁ isTable
  have hasFinalizer := weakKeyed_run.tail (.mutates (.setmetatableUdata (reachable_slot inUse₃ isUdata) metatable))
  exact hasFinalizer.tail (.mutates (.settop (reachable_main isMain) exposed))

set_option maxRecDepth 4000 in
theorem markedAgain_run : Run newstate markedAgain := by
  obtain ⟨inUse₂, isTable, inUse₄, isUdata⟩ :
      2 < (finalized.thread finalized.running).top ∧ gcvalue ((finalized.thread finalized.running).stack 2) = some (.table 3) ∧
      4 < (finalized.thread finalized.running).top ∧
      gcvalue ((finalized.thread finalized.running).stack 4) = some (.udata 0) := by
    decide
  have collected : Run newstate finalized := dropped_run.trans (run_iterate 74)
  have isKey : finalized.Accessible (.number 5) := fun isRef => nomatch isRef
  have isValue : finalized.Accessible (.object .userdata 0) := fun isRef => by
    cases isRef
    exact reachable_slot inUse₄ isUdata
  have stored := collected.tail (.mutates (.settable intPosition memory false (reachable_slot inUse₂ isTable) isKey isValue))
  exact stored.trans (run_iterate 8)

/-- The userdata is on the stack and the value of an entry of a table with weak keys, whose key is a
number; the entry is removed. -/
theorem markedAgain_removes : Occurs markedAgain ∧ markedAgain.gcstate = .propagate ∧
    markedAgain.markRest.StronglyReachable (.udata 0) ∧ ¬ markedAgain.markRest.RemovesUnreachable := by
  obtain ⟨phase, running, inUse, onStack, value, members, inside, removed⟩ :
      markedAgain.gcstate = .propagate ∧ markedAgain.markRest.running = 0 ∧ 4 < (markedAgain.markRest.thread 0).top ∧
      gcvalue ((markedAgain.markRest.thread 0).stack 4) = some (.udata 0) ∧
      valueAt (markedAgain.markRest.table 3).h (.node 0) = .object .userdata 0 ∧
      markedAgain.markRest.weakMembers 3 (.node 0) = [.number 5] ∧ 0 < (markedAgain.markRest.table 3).h.sizenode ∧
      valueAt (markedAgain.markRest.clearweak.table 3).h (.node 0) = .nil := by
    decide +kernel
  refine ⟨.run markedAgain_run.fullRun, phase, ⟨.thread 0, running ▸ .running, .single (.inr ⟨4, inUse, onStack⟩)⟩,
    fun onlyUnreachable => ?_⟩
  apply onlyUnreachable 3 (.node 0) inside _ removed
  · intro v member r isRef
    rw [members, List.mem_singleton] at member
    subst member
    cases isRef
  · rw [value]
    nofun

end Gafq.GC.State
