import Gafq.FullGC
import Gafq.Verified.GC.ProgramSteps
import Gafq.Verified.GC.Runs

/-! # Full collections keep the invariant

A full collection gives up a mark phase by sweeping everything back to the current white, which frees
nothing that is alive.  The cycle that follows may begin while userdata wait for their finalizers;
these keep their old marks until `atomic` looks at them again.
-/

namespace Gafq.GC.State

variable {N : Type} {s s' : State N} {o p r : GCRef}

/-! ## Steps of the collector -/

/-- What holds between two steps of a program that may call for full collections. -/
structure Sane (s : State N) : Prop where
  consistent : Consistent nothing s
  notGray : s.NoGrayUdata

theorem NoGrayUdata.congr (notGray : s.NoGrayUdata)
    (colour : ∀ u, s'.colour (.udata u) = s.colour (.udata u) ∨ s'.colour (.udata u) = some (.white s.currentwhite) ∨
      s'.colour (.udata u) = none) : s'.NoGrayUdata := by
  intro u isGray
  obtain same | white | freed := colour u
  · exact notGray u (same ▸ isGray)
  · cases white.symm.trans isGray
  · cases freed.symm.trans isGray

theorem Reclaims.noGrayUdata (reclaims : Reclaims s s') (notGray : s.NoGrayUdata) : s'.NoGrayUdata :=
  notGray.congr fun u => (reclaims.colour (.udata u)).imp id fun other => other.imp And.left And.left

theorem checkSizes_colour (s : State N) : s.checkSizes.colour = s.colour := by
  unfold checkSizes
  split
  · rw [resizestrt_frame]
    rfl
  · rfl

theorem gctm_colour (s : State N) : ∃ u, ∀ r, s.gctm.colour r = s.colour r ∨
    s.colour r ≠ none ∧ r = .udata u ∧ s.gctm.colour r = some (.white s.currentwhite) := by
  unfold gctm
  split
  · exact ⟨0, fun _ => .inl rfl⟩
  · next u rest _ =>
    have colour : ∀ r, ((({ s with tmudata := rest } : State N).linkudata u).makewhite (.udata u)).colour r =
        if r = .udata u then (s.colour (.udata u)).map fun _ => .white s.currentwhite else s.colour r := by
      intro r
      rw [linkudata_frame, colour_makewhite]
      rfl
    refine ⟨u, ?_⟩
    simp only
    generalize (({ s with tmudata := rest } : State N).linkudata u).makewhite (.udata u) = s₁ at colour ⊢
    have whitened : ∀ r, s₁.colour r = s.colour r ∨
        s.colour r ≠ none ∧ r = .udata u ∧ s₁.colour r = some (.white s.currentwhite) := by
      intro r
      rw [colour]
      split
      · next same =>
        subst same
        cases isColour : s.colour (.udata u) with
        | none => exact .inl rfl
        | some c => exact .inr ⟨nofun, rfl, rfl⟩
      · exact .inl rfl
    split
    · exact whitened
    · exact whitened

theorem singlestep_noGrayUdata (sane : s.Sane) : s.singlestep.NoGrayUdata := by
  obtain ⟨consistent, notGray⟩ := sane
  have after := (singlestep_consistent consistent).1
  unfold singlestep at after ⊢
  cases phase : s.gcstate with
  | pause => exact (markroot_underway consistent (.inl phase) notGray).1.marking.noGrayUdata
  | propagate =>
    rw [phase] at after
    simp only at after ⊢
    split
    · exact (atomic_consistent (consistent.underway phase)).2.2.1
    · next notEmpty =>
      obtain ⟨o, rest, isGray⟩ : ∃ o rest, s.gray = o :: rest :=
        List.exists_cons_of_ne_nil fun isNil => notEmpty (by rw [isNil]; rfl)
      exact (propagatemark_underway (consistent.underway phase) isGray).1.marking.noGrayUdata
  | sweepstring =>
    have swept := (sweepbucket_consistent consistent phase).2.1.noGrayUdata notGray
    simp only
    split
    · exact swept
    · exact swept
  | sweep =>
    have swept := (sweeplist_consistent sweepMax consistent phase).2.1.noGrayUdata notGray
    simp only
    split
    · intro u isGray
      refine swept u ?_
      rw [← checkSizes_colour]
      exact isGray
    · exact swept
  | finalize =>
    simp only
    split
    · exact notGray
    · obtain ⟨u, colour⟩ := gctm_colour s
      exact notGray.congr fun v => (colour (.udata v)).imp id fun painted => .inl painted.2.2

theorem Sane.singlestep (sane : s.Sane) : s.singlestep.Sane :=
  ⟨(singlestep_consistent sane.consistent).1, singlestep_noGrayUdata sane⟩

/-! ## The first loop -/

theorem abandon_consistent (consistent : Consistent nothing s) :
    Consistent nothing s.abandon ∧ s.abandon.colour = s.colour := by
  unfold abandon
  split
  · next phase =>
    refine ⟨?_, rfl⟩
    have owned := consistent.owned
    have rootgc : ∀ {o}, o ∈ s.rootgc ↔ o ∈ [] ++ s.rootgc := by simp
    have owned' : ({ s with
        sweepstrgc := 0, swept := [], unswept := s.rootgc, gray := [], grayagain := [], weak := []
        gcstate := .sweepstring } : State N).Owned :=
      ⟨owned.string, owned.udata, owned.traversable, owned.closedUpval, owned.openUpval, owned.openNodup, owned.openList,
        owned.buckets⟩
    have linked := consistent.linked
    refine ⟨owned', ⟨linked.nodup, linked.allocated, linked.notString, linked.strings, linked.interned⟩,
      fun {o r} live after => consistent.closed (o := o) live (by cases o <;> exact after),
      fun root => consistent.root (root.congr rfl rfl rfl rfl), consistent.tmudata, consistent.fixed, consistent.notOpen,
      fun colour => .inr (owned'.allPending rfl rfl rfl (by rw [colour]; nofun)), nofun, nofun, nofun⟩
  · exact ⟨consistent, rfl⟩

theorem abandon_phase (s : State N) : s.abandon.gcstate ≠ .pause ∧ s.abandon.gcstate ≠ .propagate := by
  unfold abandon
  split
  · exact ⟨nofun, nofun⟩
  · next phase => exact not_or.1 phase

theorem Sane.abandon (sane : s.Sane) : s.abandon.Sane := by
  obtain ⟨consistent, colour⟩ := abandon_consistent sane.consistent
  refine ⟨consistent, fun u => ?_⟩
  rw [colour]
  exact sane.notGray u

/-- A sweep ends in phase `GCSfinalize`. -/
theorem singlestep_phase (consistent : Consistent nothing s) (phase : s.gcstate = .sweepstring ∨ s.gcstate = .sweep) :
    s.singlestep.gcstate ≠ .pause ∧ s.singlestep.gcstate ≠ .propagate := by
  unfold State.singlestep
  obtain phase | phase := phase
  · have phase' := (sweepbucket_consistent consistent phase).2.2
    simp only [phase]
    split
    · exact ⟨nofun, nofun⟩
    · rw [phase']
      exact ⟨nofun, nofun⟩
  · have phase' := (sweeplist_consistent sweepMax consistent phase).2.2
    simp only [phase]
    split
    · exact ⟨nofun, nofun⟩
    · rw [phase']
      exact ⟨nofun, nofun⟩

theorem Finishing.sane (finishing : Finishing s s') (sane : s.Sane) :
    s'.Sane ∧ s'.gcstate ≠ .pause ∧ s'.gcstate ≠ .propagate := by
  induction finishing with
  | abandon => exact ⟨sane.abandon, abandon_phase s⟩
  | @singlestep s' _ notDone inductionHypothesis =>
    obtain ⟨sane', notPause, notPropagate⟩ := inductionHypothesis
    refine ⟨sane'.singlestep, singlestep_phase sane'.consistent ?_⟩
    cases phase : s'.gcstate with
    | pause => exact absurd phase notPause
    | propagate => exact absurd phase notPropagate
    | sweepstring => exact .inl rfl
    | sweep => exact .inr rfl
    | finalize => exact absurd phase notDone

/-! ## The second loop -/

theorem singlestep_underway (underway : s.Underway) (phase : s.gcstate = .propagate) :
    s.gray = [] ∧ s.singlestep = s.atomic ∨
      s.singlestep = s.propagatemark ∧ s.singlestep.Underway ∧ s.singlestep.gcstate = .propagate := by
  unfold State.singlestep
  simp only [phase]
  split
  · next isEmpty => exact .inl ⟨List.isEmpty_iff.1 isEmpty, rfl⟩
  · next notEmpty =>
    obtain ⟨o, rest, isGray⟩ : ∃ o rest, s.gray = o :: rest :=
      List.exists_cons_of_ne_nil fun isNil => notEmpty (by rw [isNil]; rfl)
    obtain ⟨underway', -, -, gcstate⟩ := propagatemark_underway underway isGray
    exact .inr ⟨rfl, underway', gcstate.trans phase⟩

theorem Collecting.sane (collecting : Collecting s s') (sane : s.Sane) :
    s'.Underway ∧ s'.gcstate = .propagate ∨ s'.Sane ∧ s'.gcstate ≠ .pause ∧ s'.gcstate ≠ .propagate := by
  induction collecting with
  | markroot finishing phase =>
    obtain ⟨sane', -⟩ := finishing.sane sane
    exact .inl ⟨(markroot_underway sane'.consistent (.inr phase) sane'.notGray).1, rfl⟩
  | @singlestep s' _ notDone inductionHypothesis =>
    obtain ⟨underway, phase⟩ | ⟨sane', notPause, notPropagate⟩ := inductionHypothesis
    · obtain ⟨-, isAtomic⟩ | ⟨-, underway', phase'⟩ := singlestep_underway underway phase
      · obtain ⟨consistent, -, notGray, -⟩ := atomic_consistent underway
        rw [isAtomic]
        refine .inr ⟨⟨consistent, notGray⟩, ?_, ?_⟩ <;> rw [atomic_eq] <;> nofun
      · exact .inl ⟨underway', phase'⟩
    · refine .inr ⟨sane'.singlestep, singlestep_phase sane'.consistent ?_⟩
      cases phase : s'.gcstate with
      | pause => exact absurd phase notPause
      | propagate => exact absurd phase notPropagate
      | sweepstring => exact .inl rfl
      | sweep => exact .inr rfl
      | finalize => exact absurd phase notDone

/-! ## Runs -/

theorem newfixeds_phase (names : List String) : ∀ (s : State N) (fresh : Nat),
    (∀ b, fresh ≤ b → s.marked (.string b) = none) → (s.newfixeds fresh names).gcstate = s.gcstate := by
  induction names with
  | nil => exact fun _ _ _ => rfl
  | cons name names inductionHypothesis =>
    intro s fresh unused
    have created := newlstr_respects (chars name) (unused fresh (le_refl _))
    unfold newfixeds
    rw [inductionHypothesis]
    · exact created.gcstate
    · exact fun b above => newlstr_marked (unused b (by omega)) (by omega)

theorem newstate_phase : (newstate : State N).gcstate = .pause := by
  unfold newstate
  rw [newfixeds_phase]
  · rfl
  · exact fun _ _ => rfl

theorem newstate_sane : (newstate : State N).Sane :=
  ⟨newstate_consistent, newstate_consistent.noGrayUdata newstate_phase⟩

section Runs

variable [GafqNumber N]

theorem Mutates.sane (mutates : Mutates s s') (sane : s.Sane) : s'.Sane := by
  have consistent := mutates.consistent sane.consistent
  refine ⟨consistent, ?_⟩
  by_cases phase : s'.gcstate = .propagate
  · exact (consistent.marking phase).noGrayUdata
  · obtain respects | ⟨env, a, unused, rfl⟩ := mutates.respects
    · rw [respects.gcstate] at phase
      exact sane.notGray.congr fun u => (respects.whitens phase).imp id .inl
    · refine sane.notGray.congr fun u => ?_
      rw [newuserdata_colour]
      split
      · exact .inr (.inl rfl)
      · exact .inl rfl

theorem FullStep.sane (step : FullStep s s') (sane : s.Sane) : s'.Sane := by
  cases step with
  | step step =>
    cases step with
    | singlestep => exact sane.singlestep
    | mutates mutates => exact mutates.sane sane
  | fullgc collecting phase =>
    obtain ⟨-, phase'⟩ | ⟨sane', -⟩ := collecting.sane sane
    · rw [phase] at phase'
      cases phase'
    · exact sane'

theorem Run.fullRun (run : Run s s') : FullRun s s' := Relation.ReflTransGen.mono (fun _ _ => .step) _ _ run

theorem FullRun.sane (run : FullRun s s') (sane : s.Sane) : s'.Sane := by
  induction run with
  | refl => exact sane
  | tail _ step inductionHypothesis => exact step.sane inductionHypothesis

/-- In every state that comes up, a mark phase is under way or the invariant holds. -/
theorem Occurs.sane (occurs : Occurs s) : s.Underway ∧ s.gcstate = .propagate ∨ s.Sane := by
  cases occurs with
  | run run => exact .inr (run.sane newstate_sane)
  | finishing run finishing => exact .inr (finishing.sane (run.sane newstate_sane)).1
  | collecting run collecting => exact (collecting.sane (run.sane newstate_sane)).imp id And.left

theorem Occurs.underway (occurs : Occurs s) (phase : s.gcstate = .propagate) : s.Underway :=
  occurs.sane.elim And.left fun sane => sane.consistent.underway phase

end Runs

end Gafq.GC.State
