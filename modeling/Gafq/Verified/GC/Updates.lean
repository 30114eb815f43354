import Gafq.Verified.GC.Atomic

/-! # The updates of the mark phase

All functions of the mark phase are sequences of a few updates: marking changes colours and lists,
and a traversal also takes entries out of tables and clears slots above the top of a stack.  What
none of these updates touches is left alone by the whole mark phase.

Marking does not leave a set of objects that is closed under the references which the collector follows.
-/

namespace Gafq.GC.State

variable {N : Type} {P : GCRef → Prop} {s s' s₁ : State N} {o p r : GCRef}

/-- One change that marking makes, to objects in `P`. -/
inductive Repaint (P : GCRef → Prop) (s : State N) : State N → Prop
  | paint (o : GCRef) (f : Colour → Colour) (inside : P o) : Repaint P s (s.paint o f)
  | lists (gray grayagain weak : List GCRef)
      (listed : ∀ {o}, o ∈ gray ∨ o ∈ grayagain ∨ o ∈ weak → o ∈ s.gray ∨ o ∈ s.grayagain ∨ o ∈ s.weak ∨ P o) :
      Repaint P s { s with gray, grayagain, weak }

abbrev Repaints (P : GCRef → Prop) (s s' : State N) : Prop := Relation.ReflTransGen (Repaint P) s s'

/-- One change that a traversal makes. -/
inductive Update (P : GCRef → Prop) (s : State N) : State N → Prop
  | repaint {s' : State N} (repaint : Repaint P s s') : Update P s s'
  | setTable (a : Nat) {x : TableObject N} (dwindles : (s.table a).Dwindles x) : Update P s (s.setTable a x)
  | clearStack (a : Nat) {stack : Nat → TValue N} (kept : ∀ i < (s.thread a).top, stack i = (s.thread a).stack i)
      (cleared : ∀ i, stack i = (s.thread a).stack i ∨ stack i = .nil) :
      Update P s (s.setThread a { s.thread a with stack })

abbrev Updates (P : GCRef → Prop) (s s' : State N) : Prop := Relation.ReflTransGen (Update P) s s'

/-- What the steps of a sequence keep, the sequence keeps. -/
theorem frame_of_steps {R step : State N → State N → Prop} (refl : ∀ s, R s s)
    (trans : ∀ {s s₁ s'}, R s s₁ → R s₁ s' → R s s') (each : ∀ {s s'}, step s s' → R s s')
    (steps : Relation.ReflTransGen step s s') : R s s' := by
  induction steps with
  | refl => exact refl s
  | tail _ last inductionHypothesis => exact trans inductionHypothesis (each last)

theorem Repaints.trans (first : Repaints P s s₁) (second : Repaints P s₁ s') : Repaints P s s' :=
  Relation.ReflTransGen.trans first second

theorem Updates.trans (first : Updates P s s₁) (second : Updates P s₁ s') : Updates P s s' :=
  Relation.ReflTransGen.trans first second

theorem Repaints.updates (repaints : Repaints P s s') : Updates P s s' :=
  Relation.ReflTransGen.mono (fun _ _ => .repaint) _ _ repaints

theorem paint_repaints (s : State N) (f : Colour → Colour) (inside : P o) : Repaints P s (s.paint o f) :=
  .single (.paint o f inside)

theorem setTable_updates {a : Nat} {x : TableObject N} (dwindles : (s.table a).Dwindles x) : Updates P s (s.setTable a x) :=
  .single (.setTable a dwindles)

/-! ## References -/

theorem setStack_fades (s : State N) (a : Nat) {stack : Nat → TValue N}
    (cleared : ∀ i, stack i = (s.thread a).stack i ∨ stack i = .nil) :
    Fades s (s.setThread a { s.thread a with stack }) := by
  have before : ∀ {i r}, gcvalue (stack i) = some r → gcvalue ((s.thread a).stack i) = some r := fun {i r} isRef => by
    obtain same | isNil := cleared i
    · exact same ▸ isRef
    · simp [isNil, gcvalue] at isRef
  refine ⟨fun {p r} after => ?_, rfl, rfl, fun _ => .refl _, fun b => ?_⟩
  · obtain same | ⟨rfl, inside⟩ | ⟨u, level, rfl, isOpen, isRef⟩ := refers_setThread after
    · exact same
    · refine inside.imp id ?_
      rintro ⟨i, exposed, isRef⟩
      exact ⟨i, exposed, before isRef⟩
    · simp only [Refers, upvalValue, isOpen]
      exact before isRef
  · by_cases same : b = a
    · subst same
      rw [show (s.setThread b { s.thread b with stack }).thread b = { s.thread b with stack } from Function.update_self ..]
      exact ⟨rfl, rfl, cleared⟩
    · rw [show (s.setThread a { s.thread a with stack }).thread b = s.thread b from Function.update_of_ne same ..]
      exact .refl _

theorem Update.fades (update : Update P s s') : Fades s s' := by
  cases update with
  | repaint repaint => cases repaint <;> exact .of_eq (refers_congr rfl rfl rfl) rfl rfl rfl rfl
  | setTable a dwindles => exact setTable_fades dwindles
  | clearStack a _ cleared => exact setStack_fades s a cleared

/-- What has been marked or waits to be traversed is in `P`, and marking will not leave `P`. -/
structure Within (P : GCRef → Prop) (s : State N) : Prop where
  nonWhite : ∀ {r}, s.NonWhite r → P r
  listed : ∀ {o}, o ∈ s.gray ∨ o ∈ s.grayagain ∨ o ∈ s.weak → P o
  closed : ∀ {o r}, P o → s.StrongRefers o r → P r
  root : ∀ {r}, s.Root r → P r
  strings : ∀ {a b}, P (.table a) → s.Refers (.table a) (.string b) → P (.string b)

theorem Within.any (s : State N) : Within (fun _ => True) s :=
  ⟨fun _ => trivial, fun _ => trivial, fun _ _ => trivial, fun _ => trivial, fun _ _ => trivial⟩

theorem Update.within (update : Update P s s') (within : Within P s) : Within P s' := by
  have fades := update.fades
  refine ⟨?_, ?_, fun inside strong => within.closed inside (fades.strong strong), ?_,
    fun inside refers => within.strings inside (fades.refers refers)⟩
  · intro r nonWhite
    cases update with
    | repaint repaint =>
      cases repaint with
      | paint o f inside =>
        by_cases self : r = o
        · exact self ▸ inside
        · exact within.nonWhite ((nonWhite_congr (colour_paint_of_ne s f self)).1 nonWhite)
      | lists => exact within.nonWhite nonWhite
    | setTable | clearStack => exact within.nonWhite nonWhite
  · intro o member
    cases update with
    | repaint repaint =>
      cases repaint with
      | paint => exact within.listed member
      | lists gray grayagain weak listed =>
        obtain inGray | inAgain | inWeak | inside := listed member
        · exact within.listed (.inl inGray)
        · exact within.listed (.inr (.inl inAgain))
        · exact within.listed (.inr (.inr inWeak))
        · exact inside
    | setTable | clearStack => exact within.listed member
  · intro r isRoot
    apply within.root
    cases update with
    | repaint repaint => cases repaint <;> exact isRoot.congr rfl rfl rfl rfl
    | setTable | clearStack => exact isRoot.congr rfl rfl rfl rfl

theorem Updates.within (updates : Updates P s s') (within : Within P s) : Within P s' := by
  induction updates with
  | refl => exact within
  | tail _ update inductionHypothesis => exact update.within inductionHypothesis

theorem Repaints.within (repaints : Repaints P s s') (within : Within P s) : Within P s' := repaints.updates.within within

theorem foldl_repaints {α : Type} {f : State N → α → State N} (as : List α) :
    ∀ {s : State N}, Within P s → (∀ {s}, Within P s → ∀ a ∈ as, Repaints P s (f s a)) → Repaints P s (as.foldl f s) := by
  induction as with
  | nil => exact fun _ _ => .refl
  | cons a as inductionHypothesis =>
    intro s within each
    have first := each within a List.mem_cons_self
    exact first.trans (inductionHypothesis (first.within within) fun within b member =>
      each within b (List.mem_cons_of_mem _ member))

/-- Marking leaves the contents of the heap alone, and what is allocated stays allocated. -/
structure Unchanged (s s' : State N) : Prop where
  background : s'.toBackground = s.toBackground
  table : s'.table = s.table
  thread : s'.thread = s.thread
  allocated : ∀ r, s'.colour r ≠ none ↔ s.colour r ≠ none

theorem Repaints.unchanged (repaints : Repaints P s s') : Unchanged s s' := by
  apply frame_of_steps (R := Unchanged) (fun s => ⟨rfl, rfl, rfl, fun _ => Iff.rfl⟩) _ _ repaints
  · intro s s₁ s' first second
    exact ⟨second.background.trans first.background, second.table.trans first.table, second.thread.trans first.thread,
      fun r => (second.allocated r).trans (first.allocated r)⟩
  · intro s s' repaint
    cases repaint with
    | paint o f =>
      refine ⟨rfl, rfl, rfl, fun r => ?_⟩
      rw [colour_paint]
      split
      · next same => simp [same]
      · rfl
    | lists => exact ⟨rfl, rfl, rfl, fun _ => Iff.rfl⟩

/-- What a traversal leaves alone. -/
structure Traversal (s s' : State N) : Prop where
  background : s'.toBackground = s.toBackground
  allocated : ∀ r, s'.colour r ≠ none ↔ s.colour r ≠ none

theorem Updates.frame (updates : Updates P s s') : Traversal s s' := by
  apply frame_of_steps (R := Traversal) (fun s => ⟨rfl, fun _ => Iff.rfl⟩) _ _ updates
  · intro s s₁ s' first second
    exact ⟨second.background.trans first.background, fun r => (second.allocated r).trans (first.allocated r)⟩
  · intro s s' update
    cases update with
    | repaint repaint =>
      have unchanged := Repaints.unchanged (.single repaint)
      exact ⟨unchanged.background, unchanged.allocated⟩
    | setTable | clearStack => exact ⟨rfl, fun _ => Iff.rfl⟩

/-! ## Marking -/

theorem linkgray_repaints (s : State N) (inside : P o) : Repaints P s (s.linkgray o) := by
  refine (paint_repaints s _ inside).tail (.lists _ _ _ fun {p} member => ?_)
  obtain inGray | others := member
  · cases List.mem_cons.1 inGray with
    | inl head => exact .inr (.inr (.inr (head ▸ inside)))
    | inr tail => exact .inl tail
  · exact .inr (others.imp id .inl)

theorem marktable_repaints (s : State N) {a : Nat} (inside : P (.table a)) : Repaints P s (s.marktable a) := by
  unfold marktable
  split
  · exact linkgray_repaints s inside
  · exact .refl

theorem markmetatable_repaints (s : State N) (mt : Option Nat) (inside : ∀ a, mt = some a → P (.table a)) :
    Repaints P s (s.markmetatable mt) := by
  cases mt with
  | none => exact .refl
  | some a => exact marktable_repaints s (inside a rfl)

theorem reallymarkvalue_repaints (within : Within P s) (inside : P o) : Repaints P s (s.reallymarkvalue o) := by
  cases o with
  | udata a =>
    have painted : Repaints P s ((s.white2gray (.udata a)).gray2black (.udata a)) :=
      (paint_repaints s _ inside).trans (paint_repaints _ _ inside)
    have refs : ∀ {r}, r ∈ (s.udata a).refs → P r := fun isRef => within.closed inside isRef
    have metatable := markmetatable_repaints ((s.white2gray (.udata a)).gray2black (.udata a))
      (s.udata a).metatable (P := P) fun mt isMetatable => refs (mem_udata_refs.2 (.inl ⟨mt, isMetatable, rfl⟩))
    have marked := painted.trans metatable
    refine marked.trans (marktable_repaints _ (refs (mem_udata_refs.2 (.inr ?_))))
    exact congrArg (fun b : Background N => GCRef.table (b.udata a).env) marked.unchanged.background
  | string => exact paint_repaints s _ inside
  | proto | closure | table | upval | thread => exact linkgray_repaints s inside

theorem markvalue_repaints (within : Within P s) {v : TValue N} (inside : ∀ r, gcvalue v = some r → P r) :
    Repaints P s (s.markvalue v) := by
  unfold markvalue
  split
  · next o isRef =>
    split
    · exact reallymarkvalue_repaints within (inside o isRef)
    · exact .refl
  · exact .refl

theorem markvalues_repaints (within : Within P s) (vs : List (TValue N))
    (inside : ∀ v ∈ vs, ∀ r, gcvalue v = some r → P r) : Repaints P s (s.markvalues vs) :=
  foldl_repaints vs within fun within v member => markvalue_repaints within (inside v member)

theorem reallymarkobject_repaints (within : Within P s) (inside : P o) : Repaints P s (s.reallymarkobject o) := by
  cases o with
  | upval u =>
    have grayed : Repaints P s (s.white2gray (.upval u)) := paint_repaints s _ inside
    have marked := grayed.trans (markvalue_repaints (grayed.within within)
      (v := (s.white2gray (.upval u)).upvalValue u) fun r isRef => within.closed inside isRef)
    simp only [reallymarkobject]
    split
    · exact marked.trans (paint_repaints _ _ inside)
    · exact marked
  | string | udata | proto | closure | table | thread => exact reallymarkvalue_repaints within inside

theorem markobject_repaints (within : Within P s) (inside : P o) : Repaints P s (s.markobject o) := by
  unfold markobject
  split
  · exact reallymarkobject_repaints within inside
  · exact .refl

theorem markobjects_repaints (within : Within P s) (os : List GCRef) (inside : ∀ o ∈ os, P o) :
    Repaints P s (s.markobjects os) :=
  foldl_repaints os within fun within o member => markobject_repaints within (inside o member)

theorem stringmarks_repaints (within : Within P s) (names : List (Option Nat))
    (inside : ∀ a, some a ∈ names → P (.string a)) : Repaints P s (s.stringmarks names) := by
  refine foldl_repaints (f := fun s a => s.white2gray (.string a)) _ within fun {s} _ a member => ?_
  exact paint_repaints s _ (inside a (by simpa using member))

theorem markmt_repaints (within : Within P s) : Repaints P s s.markmt :=
  foldl_repaints (f := fun s tag => s.markmetatable (s.mt tag)) _ within fun {s} within tag _ =>
    markmetatable_repaints s _ fun _ isMetatable => within.root (.mt tag isMetatable)

theorem markroot_repaints (within : Within P { s with gray := [], grayagain := [], weak := [] }) :
    ∃ s₁, Repaints P { s with gray := [], grayagain := [], weak := [] } s₁ ∧ s.markroot = { s₁ with gcstate := .propagate } := by
  have emptied : ({ s with gray := [], grayagain := [], weak := [] } : State N).toBackground = s.toBackground := rfl
  unfold markroot
  simp only
  generalize ({ s with gray := [], grayagain := [], weak := [] } : State N) = s₀ at within emptied ⊢
  have mainthread : s₀.mainthread = s.mainthread := by rw [emptied]
  rw [← mainthread]
  have first := markobject_repaints within (within.root .mainthread)
  have background := first.unchanged.background
  have thread := first.unchanged.thread
  have within₁ := first.within within
  generalize s₀.markobject (.thread s₀.mainthread) = s₁ at *
  have second := markvalue_repaints within₁ (v := (s₁.thread s₁.mainthread).gt) fun r isGlobals =>
    within₁.closed (within₁.root .mainthread) (.inl isGlobals)
  have within₂ := second.within within₁
  generalize s₁.markvalue (s₁.thread s₁.mainthread).gt = s₂ at *
  have third := marktable_repaints s₂ (within₂.root .registry)
  exact ⟨_, ((first.trans second).trans third).trans (markmt_repaints (third.within within₂)), rfl⟩

theorem remarkupvals_repaints (within : Within P s) : Repaints P s s.remarkupvals := by
  refine foldl_repaints s.uvhead within fun {s} within u _ => ?_
  unfold remarkupval
  split
  · next isGray =>
    exact markvalue_repaints within fun r isRef => within.closed (within.nonWhite (.inl (isgray_iff.1 isGray))) isRef
  · exact .refl

theorem marktmu_repaints (within : Within P s) (inside : ∀ u ∈ s.tmudata, P (.udata u)) : Repaints P s s.marktmu := by
  refine foldl_repaints (f := marktmudata) _ within fun {s} within u member => ?_
  have whitened : Repaints P s (s.makewhite (.udata u)) := paint_repaints s _ (inside u member)
  exact whitened.trans (reallymarkobject_repaints (whitened.within within) (inside u member))

theorem markstrings_repaints (within : Within P s) (vs : List (TValue N)) (inside : ∀ a, .string a ∈ vs → P (.string a)) :
    Repaints P s (vs.foldl markstring s) := by
  refine foldl_repaints vs within fun {s} _ v member => ?_
  cases v with
  | string a => exact paint_repaints s _ (inside a member)
  | nil | boolean | lightuserdata | number | object | deadkey => exact .refl

/-! ## Traversal -/

theorem linkweak_updates (s : State N) {a : Nat} (weakkey weakvalue : Bool) (inside : P (.table a)) :
    Updates P s (s.linkweak a weakkey weakvalue) := by
  have flagged : Updates P s (s.setTable a { s.table a with weakkey, weakvalue }) :=
    setTable_updates ⟨rfl, rfl, rfl, rfl, fun _ => .inl rfl, fun _ => .inl rfl, fun _ _ _ _ _ => rfl⟩
  refine flagged.tail (.repaint (.lists _ _ _ fun {p} member => ?_))
  obtain inGray | inAgain | inWeak := member
  · exact .inl inGray
  · exact .inr (.inl inAgain)
  · cases List.mem_cons.1 inWeak with
    | inl head => exact .inr (.inr (.inr (head ▸ inside)))
    | inr tail => exact .inr (.inr (.inl tail))

theorem traverseentries_updates (within : Within P s) {a : Nat} {weakkey weakvalue : Bool}
    (array : weakvalue = false → ∀ v ∈ arrayValues (s.table a).h, ∀ r, gcvalue v = some r → P r)
    (node : ∀ n ∈ liveNodes (s.table a).h, ∀ r, weakkey = false ∧ gcvalue n.key = some r ∨
      weakvalue = false ∧ gcvalue n.val = some r → P r) :
    Updates P s (s.traverseentries a weakkey weakvalue) := by
  have values : Repaints P s (if weakvalue then s else s.markvalues (arrayValues (s.table a).h)) := by
    split
    · exact .refl
    · next isStrong => exact markvalues_repaints within _ (array (by simpa using isStrong))
  have entries := values.trans (markvalues_repaints (values.within within)
    ((liveNodes (s.table a).h).flatMap fun n =>
      (if weakkey then [] else [n.key]) ++ if weakvalue then [] else [n.val]) fun v member r isRef => by
    obtain ⟨n, live, inEntry⟩ := List.mem_flatMap.1 member
    apply node n live r
    cases List.mem_append.1 inEntry with
    | inl isKey =>
      cases weakkey with
      | true => cases isKey
      | false => exact .inl ⟨rfl, List.mem_singleton.1 isKey ▸ isRef⟩
    | inr isValue =>
      cases weakvalue with
      | true => cases isValue
      | false => exact .inr ⟨rfl, List.mem_singleton.1 isValue ▸ isRef⟩)
  have table := entries.unchanged.table
  unfold traverseentries
  simp only
  refine entries.updates.trans (setTable_updates ?_)
  rw [table]
  exact removeentries_dwindles _

theorem traversetable_updates (within : Within P s) {a : Nat} (inside : P (.table a)) : Updates P s (s.traversetable a).1 := by
  have first := markmetatable_repaints s (P := P) (s.table a).metatable fun m isMetatable =>
    within.closed inside (.inl (by rw [isMetatable]; rfl))
  have within₁ := first.within within
  obtain ⟨weakkey, weakvalue, mode, result⟩ := traversetable_eq s a
  rw [result]
  generalize s.markmetatable (s.table a).metatable = s₁ at first within₁ mode ⊢
  have array : weakvalue = false → ∀ v ∈ arrayValues (s₁.table a).h, ∀ r, gcvalue v = some r → P r := by
    intro isStrong v member r isRef
    obtain ⟨i, within, rfl⟩ := mem_arrayValues.1 member
    exact within₁.closed inside (.inr (.inl ⟨by rw [mode, isStrong], i, within, isRef⟩))
  have node : ∀ n ∈ liveNodes (s₁.table a).h, ∀ r, weakkey = false ∧ gcvalue n.key = some r ∨
      weakvalue = false ∧ gcvalue n.val = some r → P r := by
    intro n member r which
    obtain ⟨i, within, rfl, used⟩ := mem_liveNodes.1 member
    refine within₁.closed inside (.inr (.inr ⟨i, within, used, ?_⟩))
    rw [mode]
    exact which
  have linked : Updates P s₁ (s₁.linkweak a weakkey weakvalue) := linkweak_updates s₁ weakkey weakvalue inside
  have contents : ((s₁.linkweak a weakkey weakvalue).table a).h = (s₁.table a).h := by simp [linkweak, setTable]
  split
  · exact first.updates.trans linked
  · split
    · refine (first.updates.trans linked).trans (traverseentries_updates (linked.within within₁) ?_ ?_)
      · rw [contents]
        exact array
      · rw [contents]
        exact node
    · exact first.updates.trans (traverseentries_updates within₁ array node)

theorem traverseproto_repaints (within : Within P s) {a : Nat} (inside : P (.proto a)) : Repaints P s (s.traverseproto a) := by
  have refs : ∀ {r}, r ∈ (s.proto a).refs → P r := fun isRef => within.closed inside isRef
  have source := stringmarks_repaints within [(s.proto a).source] fun b member => refs (by
    simp only [List.mem_singleton] at member
    simp [ProtoObject.refs, ← member])
  have constants := source.trans (markvalues_repaints (source.within within) (s.proto a).k fun v member r isRef =>
    refs (by
      simp only [ProtoObject.refs, List.mem_append, List.mem_filterMap]
      exact .inr (.inl ⟨v, member, isRef⟩)))
  have upvalues := constants.trans (stringmarks_repaints (constants.within within) (s.proto a).upvalues
    fun b member => refs (by simp [ProtoObject.refs, member]))
  have protos := upvalues.trans (markobjects_repaints (upvalues.within within)
    (((s.proto a).p.filterMap id).map .proto) fun o member => refs (by
      simp only [ProtoObject.refs, List.mem_append]
      exact .inr (.inr (.inr (.inl member)))))
  exact protos.trans (stringmarks_repaints (protos.within within) (s.proto a).locvars
    fun b member => refs (by simp [ProtoObject.refs, member]))

theorem traverseclosure_repaints (within : Within P s) {a : Nat} (inside : P (.closure a)) :
    Repaints P s (s.traverseclosure a) := by
  have refs : ∀ {r}, r ∈ (s.closure a).refs → P r := fun isRef => within.closed inside isRef
  unfold traverseclosure
  cases isClosure : s.closure a with
  | c env upvalue =>
    rw [isClosure] at refs
    have first := marktable_repaints s (refs (r := .table env) List.mem_cons_self)
    exact first.trans (markvalues_repaints (first.within within) _ fun v member r isRef =>
      refs (List.mem_cons_of_mem _ (List.mem_filterMap.2 ⟨v, member, isRef⟩)))
  | gafq env p upvals =>
    rw [isClosure] at refs
    have first := marktable_repaints s (refs (r := .table env) List.mem_cons_self)
    exact first.trans (markobjects_repaints (first.within within) _ fun o member => refs (List.mem_cons_of_mem _ member))

theorem traversestack_updates (within : Within P s) {a : Nat} (inside : P (.thread a)) : Updates P s (s.traversestack a) := by
  have globals := markvalue_repaints within (v := (s.thread a).gt) fun r isGlobals => within.closed inside (.inl isGlobals)
  have marked := globals.trans (markvalues_repaints (globals.within within)
    ((List.range (s.thread a).top).map (s.thread a).stack) fun v member r isRef => by
      obtain ⟨i, below, rfl⟩ := List.mem_map.1 member
      exact within.closed inside (.inr ⟨i, List.mem_range.1 below, isRef⟩))
  have thread := marked.unchanged.thread
  unfold traversestack
  simp only
  generalize (s.markvalue (s.thread a).gt).markvalues ((List.range (s.thread a).top).map (s.thread a).stack) = s₁ at marked thread ⊢
  rw [← thread]
  refine marked.updates.trans (.single (.clearStack a (fun i below => ?_) fun i => ?_))
  · have outside : ¬ ((s₁.thread a).top ≤ i ∧ i ≤ (s₁.thread a).lim) := fun inside => by omega
    exact if_neg outside
  · split
    · exact .inr rfl
    · exact .inl rfl

theorem propagatemark_updates (within : Within P s) : Updates P s s.propagatemark := by
  unfold propagatemark
  split
  · exact .refl
  · next o rest isGray =>
    have inside : P o := within.listed (.inl (isGray ▸ List.mem_cons_self))
    have popped : Repaints P s { s.gray2black o with gray := rest } := by
      refine (paint_repaints s _ inside).tail (.lists _ _ _ fun {p} member => ?_)
      obtain inRest | others := member
      · exact .inl (show p ∈ s.gray from isGray ▸ List.mem_cons_of_mem _ inRest)
      · exact .inr (others.imp id .inl)
    cases o with
    | table a =>
      have traversed := popped.updates.trans (traversetable_updates (popped.within within) inside)
      simp only
      split
      · exact traversed.trans (paint_repaints _ _ inside).updates
      · exact traversed
    | closure a => exact (popped.trans (traverseclosure_repaints (popped.within within) inside)).updates
    | thread a =>
      have linked : Repaints P s (({ s.gray2black (.thread a) with
          gray := rest, grayagain := .thread a :: s.grayagain } : State N).black2gray (.thread a)) := by
        refine (popped.tail (.lists rest (.thread a :: s.grayagain) s.weak fun {p} member => ?_)).trans (paint_repaints _ _ inside)
        obtain inRest | inAgain | inWeak := member
        · exact .inl inRest
        · cases List.mem_cons.1 inAgain with
          | inl head => exact .inr (.inr (.inr (head ▸ inside)))
          | inr tail => exact .inr (.inl tail)
        · exact .inr (.inr (.inl inWeak))
      exact linked.updates.trans (traversestack_updates (linked.within within) inside)
    | proto a => exact (popped.trans (traverseproto_repaints (popped.within within) inside)).updates
    | string | udata | upval => exact popped.updates

theorem propagateLoop_updates (fuel : Nat) : ∀ {s : State N}, Within P s → Updates P s (s.propagateLoop fuel) := by
  induction fuel with
  | zero => exact fun _ => .refl
  | succ fuel inductionHypothesis =>
    intro s within
    have first := propagatemark_updates within
    unfold propagateLoop
    split
    · exact .refl
    · exact first.trans (inductionHypothesis (first.within within))

theorem mem_lookedAt {x : TableObject N} {b : Nat} (looked : .string b ∈ s.lookedAt x) : x.Refers (.string b) := by
  cases List.mem_append.1 looked with
  | inl inArray =>
    split at inArray
    · obtain ⟨i, inside, same⟩ := mem_arrayValues.1 inArray
      exact .inr (.inl ⟨i, inside, by rw [same]; rfl⟩)
    · cases inArray
  | inr inNode =>
    obtain ⟨n, live, inEntry⟩ := List.mem_flatMap.1 inNode
    obtain ⟨i, inside, rfl, used⟩ := mem_liveNodes.1 live
    refine .inr (.inr ⟨i, inside, used, ?_⟩)
    cases List.mem_cons.1 inEntry with
    | inl isKey => exact .inl (by rw [← isKey]; rfl)
    | inr isValue =>
      split at isValue
      · cases isValue
      · exact .inr (by rw [← List.mem_singleton.1 isValue]; rfl)

theorem cleartable_updates (within : Within P s) (inside : P o) : Updates P s (s.cleartable o) := by
  cases o with
  | table a =>
    have marked := markstrings_repaints within (s.lookedAt (s.table a)) fun b looked =>
      within.strings inside (mem_lookedAt looked)
    have table := marked.unchanged.table
    refine marked.updates.trans (setTable_updates ?_)
    rw [table]
    exact cleared_dwindles s a
  | string | udata | proto | closure | upval | thread => exact .refl

theorem cleartables_updates (tables : List GCRef) : ∀ {s : State N}, Within P s → (∀ o ∈ tables, P o) →
    Updates P s (tables.foldl cleartable s) := by
  induction tables with
  | nil => exact fun _ _ => .refl
  | cons o tables inductionHypothesis =>
    intro s within inside
    have first := cleartable_updates within (inside o List.mem_cons_self)
    exact first.trans (inductionHypothesis (first.within within) fun p member => inside p (List.mem_cons_of_mem _ member))

theorem remarkweak_updates (within : Within P s) : Updates P s s.remarkweak := by
  have listed : Repaints P s { s with gray := s.weak, weak := [] } := .single (.lists _ _ _ fun {p} member => by
    obtain inWeak | inAgain | none := member
    · exact .inr (.inr (.inl inWeak))
    · exact .inr (.inl inAgain)
    · cases none)
  have running := listed.trans (markobject_repaints (listed.within within) (within.root .running))
  have marked := running.trans (markmt_repaints (running.within within))
  exact marked.updates.trans (propagateLoop_updates _ (marked.within within))

theorem remarkagain_updates (within : Within P s) : Updates P s s.remarkagain := by
  have listed : Repaints P s { s with gray := s.grayagain, grayagain := [] } := .single (.lists _ _ _ fun {p} member => by
    obtain inAgain | none | inWeak := member
    · exact .inr (.inl inAgain)
    · cases none
    · exact .inr (.inr (.inl inWeak)))
  exact listed.updates.trans (propagateLoop_updates _ (listed.within within))

end Gafq.GC.State
