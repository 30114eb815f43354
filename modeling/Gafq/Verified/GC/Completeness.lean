import Gafq.Verified.GC.Separation
import Gafq.Verified.GC.SweepRuns

/-! # A full collection frees everything that is not reachable

What `gafqC_fullgc` abandons leaves only the current white behind.  The cycle that follows marks nothing
but what the roots reach by strong references, and the strings of the weak tables among that; what
it does not mark is dead at the beginning of the second sweep and gone at its end.
-/

namespace Gafq.GC.State

variable {N : Type} {s s' t : State N} {o p r : GCRef}

/-- What a full collection may keep. -/
def Kept (s : State N) (r : GCRef) : Prop :=
  s.StronglyReachable r ∨ ∃ a b, r = .string b ∧ s.StronglyReachable (.table a) ∧ s.Refers (.table a) (.string b)

/-- The metatable has an entry for the tag method `__gc`. -/
def HasFinalizer (s : State N) (u : Nat) : Prop :=
  ∃ mt, (s.udata u).metatable = some mt ∧ ∃ i < (s.table mt).h.sizenode,
    gcvalue ((s.table mt).h.node i).key = some (.string s.tmGc) ∧ ((s.table mt).h.node i).val ≠ .nil

/-- A userdata that cannot be reached and has a finalizer which has not been called, or one that waits
for its finalizer. -/
def NeedsFinalization (s : State N) (u : Nat) : Prop :=
  u ∈ s.tmudata ∨
    s.colour (.udata u) ≠ none ∧ ¬ s.StronglyReachable (.udata u) ∧ (s.udata u).finalized = false ∧ s.HasFinalizer u

/-! ## What is marked -/

/-- When everything is white, nothing has been marked that may not be kept. -/
theorem within_of_white (fades : Fades s t) (root : ∀ {r}, t.Root r → s.Root r) (white : ∀ {r}, ¬ t.NonWhite r) :
    Within s.Kept { t with gray := [], grayagain := [], weak := [] } where
  nonWhite nonWhite := absurd nonWhite white
  listed member := by simp at member
  closed {o r} kept strong := by
    have strong : s.StrongRefers o r := fades.strong (by cases o <;> exact strong)
    obtain ⟨start, isRoot, path⟩ | ⟨a, b, rfl, -⟩ := kept
    · exact .inl ⟨start, isRoot, path.tail strong⟩
    · exact absurd strong id
  root isRoot := .inl ⟨_, root (isRoot.congr rfl rfl rfl rfl), .refl⟩
  strings {a b} kept refers := by
    obtain reachable | ⟨c, d, isString, -⟩ := kept
    · exact .inr ⟨a, b, rfl, reachable, fades.refers (p := .table a) refers⟩
    · cases isString

/-- A tag method that is found is an entry. -/
theorem hasFinalizer_of_gcmethod {u : Nat} (isMethod : (s.gcmethod u).isNil = false) : s.HasFinalizer u := by
  unfold gcmethod at isMethod
  split at isMethod
  · next mt isMetatable =>
    unfold gettm at isMethod
    simp only at isMethod
    split at isMethod
    · next i found =>
      have inside := List.mem_range.1 (List.mem_of_find?_eq_some found)
      have key := List.find?_some found
      refine ⟨mt, isMetatable, i, inside, by simpa using key, fun isNil => ?_⟩
      rw [isNil] at isMethod
      cases isMethod
    · cases isMethod
  · cases isMethod

/-- No finalizer appears during a collection. -/
theorem HasFinalizer.before {u : Nat} (fades : Fades s t) (metatable : (t.udata u).metatable = (s.udata u).metatable)
    (tmGc : t.tmGc = s.tmGc) (hasFinalizer : t.HasFinalizer u) : s.HasFinalizer u := by
  obtain ⟨mt, isMetatable, i, inside, key, used⟩ := hasFinalizer
  have dwindles := fades.table mt
  refine ⟨mt, metatable ▸ isMetatable, i, dwindles.sizenode ▸ inside, ?_, ?_⟩
  · obtain same | removed := dwindles.node i
    · rw [← same, ← tmGc]
      exact key
    · exact absurd removed.1 used
  · obtain same | removed := dwindles.node i
    · rw [← same]
      exact used
    · exact absurd removed.1 used

/-! ## The atomic step -/

variable {P : GCRef → Prop}

theorem Updates.fades (updates : Updates P s s') : Fades s s' := by
  apply frame_of_steps Fades.refl _ _ updates
  · exact fun first second => first.trans second
  · exact fun update => update.fades

/-- Userdata to be finalized are marked too. -/
theorem preserve_within (within : Within P s) (nodup : s.rootgc.Nodup) (waiting : ∀ u ∈ s.tmudata, P (.udata u))
    (selected : ∀ u, .udata u ∈ s.rootgc → s.selected false u = true → P (.udata u)) :
    Within P s.preserve ∧ (∀ u ∈ s.preserve.tmudata, P (.udata u)) := by
  have separate := @separateudata_eq _ s false nodup
  have refs : ∀ a, (s.separated false s.afterMain a).refs = (s.udata a).refs := fun a => by
    unfold separated
    split <;> rfl
  have separates : Within P (s.separateudata false) := by
    rw [separate]
    have fades : Fades s { s with
        udata := s.separated false s.afterMain, tmudata := s.tmudata ++ s.selection false s.afterMain, swept := []
        unswept := s.rootgc.takeWhile (· != .thread s.mainthread) ++ s.afterMain.filter fun o => !s.isSelected false o } :=
      .of_eq (refers_setLists refs _ _ _) rfl rfl rfl rfl
    exact ⟨within.nonWhite, within.listed, fun inside strong => within.closed inside (fades.strong strong),
      fun isRoot => within.root (isRoot.congr rfl rfl rfl rfl), fun inside refers => within.strings inside (fades.refers refers)⟩
  have inside : ∀ u ∈ (s.separateudata false).tmudata, P (.udata u) := by
    rw [separate]
    intro u member
    cases List.mem_append.1 member with
    | inl before => exact waiting u before
    | inr new =>
      obtain ⟨listed, isSelected⟩ := mem_selection.1 new
      exact selected u ((List.dropWhile_sublist _).subset listed) isSelected
  have marked := marktmu_repaints separates inside
  have updates := marked.updates.trans (propagateLoop_updates
    ((s.separateudata false).marktmu.gray.length + (s.separateudata false).marktmu.objects.length) (marked.within separates))
  refine ⟨updates.within separates, fun u member => inside u ?_⟩
  have background : s.preserve.toBackground = (s.separateudata false).toBackground := updates.frame.background
  have tmudata : s.preserve.tmudata = (s.separateudata false).tmudata := by rw [background]
  exact tmudata ▸ member

theorem finishMarking_within (within : Within P s) (nodup : s.rootgc.Nodup) (waiting : ∀ u ∈ s.tmudata, P (.udata u))
    (selected : ∀ {t : State N}, Fades s t → t.toBackground = s.toBackground → (∀ r, t.colour r ≠ none ↔ s.colour r ≠ none) →
      ∀ u, .udata u ∈ s.rootgc → t.selected false u = true → P (.udata u)) :
    Within P s.finishMarking ∧ (∀ u ∈ s.finishMarking.tmudata, P (.udata u)) := by
  have upvals := remarkupvals_repaints within
  have first : Updates P s s.remarkupvals.propagateall := upvals.updates.trans (propagateLoop_updates _ (upvals.within within))
  have weak := first.trans (remarkweak_updates (first.within within))
  have again := weak.trans (remarkagain_updates (weak.within within))
  have background := again.frame.background
  have rootgc : s.remarkupvals.propagateall.remarkweak.remarkagain.rootgc = s.rootgc := by
    simp only [State.rootgc, background]
  obtain ⟨preserved, inside⟩ := preserve_within (again.within within) (by rw [rootgc]; exact nodup)
    (by rw [background]; exact waiting) fun u listed isSelected =>
      selected again.fades background again.frame.allocated u (rootgc ▸ listed) isSelected
  unfold finishMarking
  simp only
  generalize s.remarkupvals.propagateall.remarkweak.remarkagain.preserve = t at preserved inside ⊢
  have cleared := cleartables_updates t.weak preserved fun o member => preserved.listed (.inr (.inr member))
  refine ⟨cleared.within preserved, fun u member => inside u ?_⟩
  have tmudata : (t.weak.foldl cleartable t).tmudata = t.tmudata := by rw [cleared.frame.background]
  exact tmudata ▸ member

/-! ## The whole collection -/

theorem abandon_reclaims (s : State N) : Reclaims s s.abandon := by
  unfold abandon
  split
  · exact ⟨rfl, fun root => root.congr rfl rfl rfl rfl, rfl, rfl, rfl, rfl, rfl, fun _ => .inl rfl,
      .of_eq (by funext o r; cases o <;> rfl) rfl rfl rfl rfl, id⟩
  · exact .refl s

/-- The first loop leaves a heap in which everything is white. -/
theorem finishing_ends (sane : s.Sane) (noneLeft : s.tmudata = []) :
    ∃ t : State N, Leads .finalize s.abandon t ∧ t.Sane ∧ t.gcstate = .finalize ∧ Reclaims s t ∧ ∀ {r}, ¬ t.NonWhite r := by
  obtain ⟨notPause, notPropagate⟩ := abandon_phase s
  obtain ⟨t, leads, sane', phase, reclaims⟩ := @sweeping_ends _ _ .finalize nofun nofun sane.abandon notPause notPropagate
  have whole := (abandon_reclaims s).trans reclaims
  refine ⟨t, leads, sane', phase, whole, fun {r} nonWhite => ?_⟩
  have white : ∀ {c}, t.colour r = some c → c = .white t.currentwhite := by
    intro c colour
    refine (sane'.consistent.clean colour).resolve_right fun isPending => ?_
    unfold Pending at isPending
    rw [phase] at isPending
    obtain ⟨u, -, member⟩ := isPending
    rw [whole.tmudata, noneLeft] at member
    cases member
  obtain gray | black := nonWhite
  · cases white gray
  · cases white black

/-- The mark phase of a full collection ends, and it has marked nothing but what may be kept. -/
theorem collecting_marks (none : ∀ u, ¬ s.NeedsFinalization u) (sane' : t.Sane) (phase : t.gcstate = .finalize)
    (reclaims : Reclaims s t) (white : ∀ {r}, ¬ t.NonWhite r) :
    ∃ t' : State N, Leads .pause t.markroot t'.atomic ∧ t'.Underway ∧ Within s.Kept t'.finishMarking ∧
      (∀ u ∈ t'.finishMarking.tmudata, s.Kept (.udata u)) ∧ t'.fixed = s.fixed := by
  obtain ⟨underway, keeps, -⟩ := markroot_underway sane'.consistent (.inr phase) sane'.notGray
  have start := within_of_white reclaims.fades reclaims.root white
  obtain ⟨s₁, repaints, marked⟩ := markroot_repaints start
  have within : Within s.Kept t.markroot := by
    have before := repaints.within start
    rw [marked]
    exact ⟨before.nonWhite, before.listed, fun {o r} inside strong => before.closed (o := o) inside (by cases o <;> exact strong),
      fun isRoot => before.root (isRoot.congr rfl rfl rfl rfl), before.strings⟩
  have background : t.markroot.toBackground = { t.toBackground with gcstate := .propagate } := by
    rw [marked]
    exact congrArg (fun b : Background N => { b with gcstate := .propagate }) repaints.unchanged.background
  obtain ⟨t', leads, underway', phase', isEmpty, background', keeps', stays⟩ :=
    @marking_ends _ .pause (by rintro ⟨⟩) t.markroot.work _ (le_refl _) underway rfl
  have tmudata : t'.tmudata = [] := by
    rw [background', background]
    show t.tmudata = []
    rw [reclaims.tmudata]
    exact List.eq_nil_iff_forall_not_mem.2 fun u member => none u (.inl member)
  have fades := reclaims.fades.trans (keeps.trans keeps').fades
  have fixed := (keeps.trans keeps').fixed.trans reclaims.fixed
  have atomic : Leads .pause t' t'.atomic := by
    have notDone : t'.gcstate ≠ .pause := by rw [phase']; rintro ⟨⟩
    have result : t'.singlestep = t'.atomic := by
      simp only [State.singlestep, phase', isEmpty, List.isEmpty_nil, if_true]
    exact result ▸ Leads.single notDone
  obtain ⟨marked', inside⟩ := finishMarking_within (stays within) (List.Nodup.of_append_left underway'.sound.linked.nodup)
    (by rw [tmudata]; rintro _ ⟨⟩) fun {t₁} fades₁ background₁ allocated₁ u listed isSelected => by
      -- a userdata that is selected and not reachable would have needed a finalizer
      simp only [selected, Bool.and_eq_true, Bool.not_eq_true'] at isSelected
      obtain ⟨⟨-, notYet⟩, isMethod⟩ := isSelected
      have udata : t₁.udata = s.udata := by
        rw [background₁, background', background]
        exact reclaims.udata
      have tmGc : t₁.tmGc = s.tmGc := by
        rw [background₁, background', background]
        exact reclaims.tmGc
      by_contra notKept
      refine none u (.inr ⟨?_, fun reachable => notKept (.inl reachable), udata ▸ notYet,
        (hasFinalizer_of_gcmethod isMethod).before (fades.trans fades₁) (by rw [udata]) tmGc⟩)
      have present : t'.colour (.udata u) ≠ Option.none := (underway'.sound.linked.allocated listed).1
      exact reclaims.allocated (((keeps.trans keeps').allocated _).1 present)
  exact ⟨t', leads.trans atomic, underway', marked', inside, fixed⟩

/-- After `gafqC_fullgc` the collector is in phase `GCSpause`, and every object that was not fixed and
could not be reached from the roots has been freed. -/
theorem Sane.fullgc (sane : s.Sane) (none : ∀ u, ¬ s.NeedsFinalization u) : ∃ fuel s', s.fullgc fuel = some s' ∧
    s'.gcstate = .pause ∧ ∀ r, s.fixed r = false → ¬ s.Kept r → s'.colour r = Option.none := by
  have noneLeft : s.tmudata = [] := List.eq_nil_iff_forall_not_mem.2 fun u member => none u (.inl member)
  obtain ⟨t, finishing, sane', phase, reclaims, white⟩ := finishing_ends sane noneLeft
  obtain ⟨t₁, collecting, underway, within, tmudata, fixed⟩ := collecting_marks none sane' phase reclaims white
  obtain ⟨consistent, -, notGray, live, -, keeps⟩ := atomic_consistent underway
  have isAtomic := atomic_eq t₁
  have atomicFixed : t₁.atomic.fixed = t₁.finishMarking.fixed := by rw [isAtomic]
  have fixed₁ := atomicFixed.trans (keeps.fixed.trans fixed)
  have tmudata₁ : t₁.atomic.tmudata = t₁.finishMarking.tmudata := by rw [isAtomic]
  have sweepstring : t₁.atomic.gcstate = .sweepstring := by rw [isAtomic]
  clear isAtomic atomicFixed
  generalize t₁.atomic = t₂ at collecting consistent notGray live fixed₁ tmudata₁ sweepstring
  have sane₂ : t₂.Sane := ⟨consistent, notGray⟩
  obtain ⟨t₃, sweeping, sane₃, phase₃, reclaims₃⟩ := @sweeping_ends _ _ .pause nofun nofun sane₂
    (by rw [sweepstring]; nofun) (by rw [sweepstring]; nofun)
  obtain ⟨s', finalizing, phase', freed⟩ := finalize_ends t₃.tmudata.length rfl phase₃
  obtain ⟨n, first⟩ := finishing.stepsUntil phase
  obtain ⟨m, second⟩ := ((collecting.trans sweeping).trans finalizing).stepsUntil phase'
  refine ⟨max n m, s', ?_, phase', fun r notFixed notKept => freed r ?_⟩
  · unfold State.fullgc
    rw [first _ (Nat.le_max_left n m)]
    exact second _ (Nat.le_max_right n m)
  · by_contra present
    have before := reclaims₃.allocated present
    have notLive : ¬ t₂.Live r := fun isLive => notKept (within.nonWhite ((live r).1 isLive))
    have isDead : t₂.isdead r = true := by
      by_contra notDead
      exact notLive (live_of_not_dead before (by simpa using notDead))
    obtain still | gone := reclaims₃.dead (by rw [fixed₁]; exact notFixed) isDead
    · obtain white | isPending := sane₃.consistent.clean (isdead_iff.1 still)
      · simp at white
      · unfold Pending at isPending
        rw [phase₃] at isPending
        obtain ⟨u, rfl, member⟩ := isPending
        rw [reclaims₃.tmudata, tmudata₁] at member
        exact notKept (tmudata u member)
    · exact present gone

section Runs

variable [GafqNumber N]

/-- In every state of a run in which no userdata needs finalization, a full collection ends in phase
`GCSpause` and frees every object that is not fixed and not reachable, strings in weak tables that are
reachable apart. -/
theorem fullgc_frees_unreachable (run : FullRun newstate s) (none : ∀ u, ¬ s.NeedsFinalization u) :
    ∃ fuel s', s.fullgc fuel = some s' ∧ s'.gcstate = .pause ∧
      ∀ r, s.fixed r = false → ¬ s.StronglyReachable r →
        (∀ a b, r = .string b → s.StronglyReachable (.table a) → ¬ s.Refers (.table a) r) → s'.colour r = Option.none := by
  obtain ⟨fuel, s', ran, phase, freed⟩ := (run.sane newstate_sane).fullgc none
  refine ⟨fuel, s', ran, phase, fun r notFixed notReachable noString => freed r notFixed fun kept => ?_⟩
  obtain reachable | ⟨a, b, rfl, reachable, refers⟩ := kept
  · exact notReachable reachable
  · exact noString a b rfl reachable refers

end Runs

/-! ## A table that is not reachable -/

theorem not_stronglyReachable {P : GCRef → Prop} (root : ∀ {r}, s.Root r → P r)
    (closed : ∀ {o r}, P o → s.StrongRefers o r → P r) (outside : ¬ P r) : ¬ s.StronglyReachable r := by
  rintro ⟨start, isRoot, path⟩
  apply outside
  induction path with
  | refl => exact root isRoot
  | tail _ strong inductionHypothesis => exact closed (inductionHypothesis fun inside => outside (closed inside strong)) strong

theorem newfixeds_udata (u : Nat) (names : List String) : ∀ (s : State N) (fresh : Nat),
    (∀ b, fresh ≤ b → s.marked (.string b) = none) → s.colour (.udata u) = none →
    (s.newfixeds fresh names).colour (.udata u) = none := by
  induction names with
  | nil => exact fun _ _ _ isNone => isNone
  | cons name names inductionHypothesis =>
    intro s fresh unused isNone
    have created := newlstr_respects (chars name) (unused fresh (le_refl _))
    apply inductionHypothesis
    · exact fun b above => newlstr_marked (unused b (by omega)) (by omega)
    · by_contra present
      exact created.noneNew present isNone

theorem newstate_udata (u : Nat) : (newstate : State N).colour (.udata u) = none := by
  unfold newstate
  apply newfixeds_udata
  · exact fun _ _ => rfl
  · rfl

theorem settop_colour (s : State N) (th n : Nat) : (s.settop th n).colour = s.colour := rfl

/-- A table was created and dropped. -/
def garbage : State Int := (newstate.createtable memory 0 0 2).settop 0 1

theorem fullgc_frees_garbage : ∃ fuel s', garbage.fullgc fuel = some s' ∧ s'.gcstate = .pause ∧
    garbage.colour (.table 2) ≠ none ∧ s'.colour (.table 2) = none := by
  obtain ⟨fresh, isMain, exposed, tmudata, present, notFixed, mainthread, registry, running, mt, global, top, slot, metatable,
      sizearray, values⟩ :
      (newstate : State Int).marked (.table 2) = none ∧ (newstate.createtable memory 0 0 2 : State Int).mainthread = 0 ∧
      1 ≤ ((newstate.createtable memory 0 0 2 : State Int).thread 0).exposed ∧ garbage.tmudata = [] ∧
      garbage.colour (.table 2) ≠ none ∧ garbage.fixed (.table 2) = false ∧ garbage.mainthread = 0 ∧ garbage.registry = 1 ∧
      garbage.running = 0 ∧ (BasicType.all.all fun tag => (garbage.mt tag).isNone) = true ∧
      gcvalue (garbage.thread 0).gt = some (.table 0) ∧ (garbage.thread 0).top = 1 ∧
      gcvalue ((garbage.thread 0).stack 0) = none ∧ (∀ a < 2, (garbage.table a).metatable = none) ∧
      (∀ a < 2, (garbage.table a).h.sizearray = 0) ∧
      ∀ a < 2, ∀ i < (garbage.table a).h.sizenode, ((garbage.table a).h.node i).val = .nil := by
    decide +kernel
  have run : FullRun newstate garbage :=
    Run.fullRun (.tail (.single (.mutates (.createtable memory 0 0 fresh))) (.mutates (.settop (reachable_main isMain) exposed)))
  have sameColour : garbage.colour = (newstate.createtable memory 0 0 2 : State Int).colour := settop_colour _ 0 1
  have noUdata : ∀ u, garbage.colour (.udata u) = none := fun u => by
    rw [sameColour]
    by_contra created
    exact (createtable_respects memory 0 0 fresh).noneNew created (newstate_udata u)
  have unreachable : ¬ garbage.StronglyReachable (.table 2) := by
    refine not_stronglyReachable (P := fun r => r = .thread 0 ∨ ∃ a < 2, r = .table a) (fun isRoot => ?_)
      (fun {o r} inside strong => ?_) ?_
    · cases isRoot with
      | mainthread => exact .inl (by rw [mainthread])
      | running => exact .inl (by rw [running])
      | registry => exact .inr ⟨1, by decide, by rw [registry]⟩
      | mt tag isMetatable =>
        have isNone := List.all_eq_true.1 mt tag (by cases tag <;> decide)
        rw [isMetatable] at isNone
        cases isNone
    · obtain rfl | ⟨a, below, rfl⟩ := inside
      · obtain isGlobals | ⟨i, inUse, isRef⟩ := strong
        · rw [global] at isGlobals
          exact .inr ⟨0, by decide, (Option.some.inj isGlobals).symm⟩
        · rw [top, Nat.lt_one_iff] at inUse
          rw [inUse, slot] at isRef
          cases isRef
      · obtain isMetatable | ⟨-, i, inside, -⟩ | ⟨i, inside, used, -⟩ := strong
        · rw [metatable a below] at isMetatable
          cases isMetatable
        · rw [sizearray a below] at inside
          exact absurd inside (Nat.not_lt_zero i)
        · exact absurd (values a below i inside) used
    · rintro (isThread | ⟨a, below, same⟩)
      · cases isThread
      · cases same
        exact absurd below (by decide)
  obtain ⟨fuel, s', ran, phase, freed⟩ := fullgc_frees_unreachable run fun u needs => by
    obtain waits | ⟨created, -⟩ := needs
    · rw [tmudata] at waits
      cases waits
    · exact created (noUdata u)
  exact ⟨fuel, s', ran, phase, present, freed _ notFixed unreachable nofun⟩

end Gafq.GC.State
