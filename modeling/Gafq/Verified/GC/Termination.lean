import Gafq.Verified.GC.FullCollections

/-! # The loops of a full collection end

Each step of the sweep goes on in a list, with one exception: a thread that is freed closes its
upvalues, and these may come to stand at the place where the sweep goes on.  They leave the list of
open upvalues for that.
-/

namespace Gafq.GC.State

variable {N : Type} {s s' s₁ : State N} {o p r : GCRef} {phase : GCPhase}

/-- `s'` comes after `s` in `while (g->gcstate != phase) singlestep(L)`. -/
inductive Leads (phase : GCPhase) : State N → State N → Prop
  | refl (s : State N) : Leads phase s s
  | step {s s' : State N} : s.gcstate ≠ phase → Leads phase s.singlestep s' → Leads phase s s'

namespace Leads

theorem trans (first : Leads phase s s₁) (second : Leads phase s₁ s') : Leads phase s s' := by
  induction first with
  | refl => exact second
  | step notDone _ inductionHypothesis => exact .step notDone (inductionHypothesis second)

theorem single (notDone : s.gcstate ≠ phase) : Leads phase s s.singlestep := .step notDone (.refl _)

theorem stepsUntil (leads : Leads phase s s') (done : s'.gcstate = phase) :
    ∃ n, ∀ fuel ≥ n, s.stepsUntil phase fuel = some s' := by
  induction leads with
  | refl s =>
    refine ⟨0, fun fuel _ => ?_⟩
    cases fuel <;> simp [State.stepsUntil, done]
  | @step s s' notDone _ inductionHypothesis =>
    obtain ⟨n, enough⟩ := inductionHypothesis done
    refine ⟨n + 1, fun fuel more => ?_⟩
    obtain ⟨fuel, rfl⟩ : ∃ rest, fuel = rest + 1 := ⟨fuel - 1, by omega⟩
    rw [State.stepsUntil, if_neg notDone]
    exact enough fuel (by omega)

end Leads

/-! ## The sweep -/

/-- A step of the collector in the sweep. -/
theorem sweepstep_reclaims (consistent : Consistent nothing s) (phase : s.gcstate = .sweepstring ∨ s.gcstate = .sweep) :
    Reclaims s s.singlestep := by
  have rephased : ∀ {t : State N} (gcstate : GCPhase), Reclaims t { t with gcstate } := fun _ =>
    ⟨rfl, fun root => root.congr rfl rfl rfl rfl, rfl, rfl, rfl, rfl, rfl, fun _ => .inl rfl,
      .of_eq (by funext o r; cases o <;> rfl) rfl rfl rfl rfl, id⟩
  have resized : ∀ {t : State N} (strt : List (List Nat)), Reclaims t { t with strt } := fun _ =>
    ⟨rfl, fun root => root.congr rfl rfl rfl rfl, rfl, rfl, rfl, rfl, rfl, fun _ => .inl rfl,
      .of_eq (by funext o r; cases o <;> rfl) rfl rfl rfl rfl, id⟩
  unfold State.singlestep
  obtain phase | phase := phase
  · have reclaims := (sweepbucket_consistent consistent phase).2.1
    simp only [phase]
    split
    · exact reclaims.trans (rephased .sweep)
    · exact reclaims
  · obtain ⟨consistent', reclaims, -⟩ := sweeplist_consistent sweepMax consistent phase
    have frame := (checkSizes_consistent consistent').2
    simp only [phase]
    split
    · rw [frame]
      exact (reclaims.trans (resized _)).trans (rephased .finalize)
    · exact reclaims

/-- An object that is dead and may be freed stays dead until it is freed. -/
theorem Reclaims.dead (reclaims : Reclaims s s') (notFixed : s.fixed r = false) (isDead : s.isdead r = true) :
    s'.isdead r = true ∨ s'.colour r = none := by
  obtain same | ⟨-, live | ⟨-, -, isFixed⟩⟩ | ⟨freed, -⟩ := reclaims.colour r
  · exact .inl ((isdead_congr same reclaims.currentwhite).trans isDead)
  · rw [live.not_dead] at isDead
    cases isDead
  · rw [notFixed] at isFixed
    cases isFixed
  · exact .inr freed

/-- What the sweep of `rootgc` has still to do. -/
def sweepWork (s : State N) : Nat := s.unswept.length + s.uvhead.toFinset.card

theorem Closes.sweepWork {us : List Nat} (closes : Closes us s s') (nodup : us.Nodup) (isOpen : ∀ u ∈ us, u ∈ s.uvhead) :
    s'.sweepWork ≤ s.sweepWork := by
  have rootgc := closes.rootgc.length_eq
  simp only [State.rootgc, List.length_append, List.length_map] at rootgc
  have uvhead : s'.uvhead.toFinset = s.uvhead.toFinset \ us.toFinset := by
    ext v
    simp [closes.uvhead]
  have subset : us.toFinset ⊆ s.uvhead.toFinset := fun u member =>
    List.mem_toFinset.2 (isOpen u (List.mem_toFinset.1 member))
  have fewer := Finset.card_sdiff_add_card_eq_card subset
  rw [List.toFinset_card_of_nodup nodup] at fewer
  have longer := closes.swept
  simp only [State.sweepWork, uvhead]
  omega

theorem sweepone_work {rest : List GCRef} (consistent : Consistent nothing s) (phase : s.gcstate = .sweep)
    (unswept : s.unswept = o :: rest) : s.sweepone.sweepWork < s.sweepWork := by
  have present : s.colour o ≠ none := (consistent.linked.allocated (by simp [rootgc, unswept])).1
  have popped : ∀ {t : State N}, t.unswept = rest → (∀ {v}, v ∈ t.uvhead → v ∈ s.uvhead) → t.sweepWork < s.sweepWork := by
    intro t isRest fewer
    have subset : t.uvhead.toFinset ⊆ s.uvhead.toFinset := fun v member =>
      List.mem_toFinset.2 (fewer (List.mem_toFinset.1 member))
    have card := Finset.card_le_card subset
    simp only [sweepWork, isRest, unswept, List.length_cons]
    omega
  unfold sweepone
  simp only [unswept]
  by_cases isThread : ∃ th, o = .thread th
  · obtain ⟨th, rfl⟩ := isThread
    have swept := sweepopenupval_swept consistent phase present
    generalize s.sweepopenupval (.thread th) = s₁ at *
    have consistent₁ := swept.consistent
    have present₁ : s₁.colour (.thread th) ≠ none := swept.colour ▸ present
    split
    · -- the upvalues that are left are closed
      have nodup := consistent₁.owned.openNodup present₁
      have closes := (@closeLoop_white _ th (s₁.thread th).openupval { s₁ with unswept := rest } nodup rfl
        fun u member => ⟨swept.white member, (consistent₁.owned.openList present₁ member).2⟩).1
      have isOpen : ∀ u ∈ (s₁.thread th).openupval, u ∈ ({ s₁ with unswept := rest } : State N).uvhead := fun u member => by
        obtain ⟨here, level, kind⟩ := consistent₁.owned.openList present₁ member
        exact (consistent₁.owned.openUpval here kind).1
      exact Nat.lt_of_le_of_lt (closes.sweepWork nodup isOpen) (popped rfl fun member => swept.uvhead member)
    · exact popped rfl fun member => swept.uvhead member
  · have same : s.sweepopenupval o = s := by
      cases o with
      | thread th => exact absurd ⟨th, rfl⟩ isThread
      | string | udata | proto | closure | table | upval => rfl
    rw [same]
    split
    · cases o with
      | thread th => exact absurd ⟨th, rfl⟩ isThread
      | string | udata | proto | closure | table | upval => exact popped rfl id
    · exact popped rfl id

theorem sweeplist_work (count : Nat) : ∀ {s : State N}, Consistent nothing s → s.gcstate = .sweep →
    (s.sweeplist count).sweepWork ≤ s.sweepWork := by
  induction count with
  | zero => exact fun _ _ => le_refl _
  | succ count inductionHypothesis =>
    intro s consistent phase
    obtain ⟨consistent₁, -, phase₁⟩ := sweepone_consistent consistent phase
    refine (inductionHypothesis consistent₁ phase₁).trans ?_
    cases unswept : s.unswept with
    | nil => simp [sweepone, unswept]
    | cons o rest => exact (sweepone_work consistent phase unswept).le

/-- The sweep of `rootgc` ends. -/
theorem sweep_ends {done : GCPhase} (notSweep : done ≠ .sweep) (work : Nat) : ∀ {s : State N}, s.sweepWork ≤ work → s.Sane →
    s.gcstate = .sweep → ∃ s', Leads done s s' ∧ s'.Sane ∧ s'.gcstate = .finalize ∧ Reclaims s s' := by
  induction work with
  | zero =>
    intro s enough sane phase
    have unswept : s.unswept = [] := by
      apply List.length_eq_zero_iff.1
      simp only [sweepWork] at enough
      omega
    have swept := sweeplist_work sweepMax sane.consistent phase
    refine ⟨_, .single (by rw [phase]; exact notSweep.symm), sane.singlestep, ?_,
      sweepstep_reclaims sane.consistent (.inr phase)⟩
    have empty : (s.sweeplist sweepMax).unswept = [] := by
      apply List.length_eq_zero_iff.1
      simp only [sweepWork] at enough swept
      omega
    simp only [State.singlestep, phase, empty, List.isEmpty_nil, if_true]
  | succ work inductionHypothesis =>
    intro s enough sane phase
    have reclaims := sweepstep_reclaims sane.consistent (.inr phase)
    have notDone : s.gcstate ≠ done := by rw [phase]; exact notSweep.symm
    by_cases empty : (s.sweeplist sweepMax).unswept.isEmpty = true
    · refine ⟨_, .single notDone, sane.singlestep, ?_, reclaims⟩
      simp only [State.singlestep, phase, empty, if_true]
    · have result : s.singlestep = s.sweeplist sweepMax := by simp only [State.singlestep, phase, if_neg empty]
      have phase' : s.singlestep.gcstate = .sweep := by
        rw [result]
        exact (sweeplist_consistent sweepMax sane.consistent phase).2.2
      have less : s.singlestep.sweepWork ≤ work := by
        rw [result]
        cases unswept : s.unswept with
        | nil =>
          have nothing : ∀ count, s.sweeplist count = s := by
            intro count
            induction count with
            | zero => rfl
            | succ count same => rw [sweeplist, sweepone, unswept, same]
          rw [nothing, unswept] at empty
          exact absurd rfl empty
        | cons o rest =>
          obtain ⟨consistent₁, -, phase₁⟩ := sweepone_consistent sane.consistent phase
          have first := sweepone_work sane.consistent phase unswept
          have others := sweeplist_work 39 consistent₁ phase₁
          have unfolded : s.sweeplist sweepMax = s.sweepone.sweeplist 39 := rfl
          rw [unfolded]
          omega
      obtain ⟨s', leads, sane', phase'', reclaims'⟩ := inductionHypothesis less sane.singlestep phase'
      exact ⟨s', .step notDone leads, sane', phase'', reclaims.trans reclaims'⟩

theorem sweepbucket_frame (s : State N) :
    s.sweepbucket.strt.length = s.strt.length ∧ s.sweepbucket.sweepstrgc = s.sweepstrgc + 1 := by
  have frame := (sweepstrings_spec (s.strt.getD s.sweepstrgc []) s).frame
  unfold sweepbucket
  simp only
  rw [frame]
  exact ⟨List.length_set, rfl⟩

/-- The sweep of the string table comes to the sweep of `rootgc`. -/
theorem sweepstring_ends {done : GCPhase} (notSweepstring : done ≠ .sweepstring) (left : Nat) : ∀ {s : State N},
    s.strt.length ≤ s.sweepstrgc + left → s.Sane → s.gcstate = .sweepstring → ∃ s', Leads done s s' ∧ s'.Sane ∧ s'.gcstate = .sweep ∧ Reclaims s s' := by
  induction left with
  | zero =>
    intro s enough sane phase
    obtain ⟨length, next⟩ := sweepbucket_frame s
    refine ⟨_, .single (by rw [phase]; exact notSweepstring.symm), sane.singlestep, ?_,
      sweepstep_reclaims sane.consistent (.inl phase)⟩
    simp only [State.singlestep, phase, length, next]
    rw [if_pos (by omega)]
  | succ left inductionHypothesis =>
    intro s enough sane phase
    obtain ⟨length, next⟩ := sweepbucket_frame s
    have notDone : s.gcstate ≠ done := by rw [phase]; exact notSweepstring.symm
    have reclaims := sweepstep_reclaims sane.consistent (.inl phase)
    by_cases done : s.strt.length ≤ s.sweepstrgc + 1
    · refine ⟨_, .single notDone, sane.singlestep, ?_, reclaims⟩
      simp only [State.singlestep, phase, length, next, if_pos done]
    · have result : s.singlestep = s.sweepbucket := by
        simp only [State.singlestep, phase, length, next, if_neg done]
      have phase' : s.singlestep.gcstate = .sweepstring := by
        rw [result]
        exact (sweepbucket_consistent sane.consistent phase).2.2
      obtain ⟨s', leads, sane', phase'', reclaims'⟩ :=
        inductionHypothesis (by rw [result, length, next]; omega) sane.singlestep phase'
      exact ⟨s', .step notDone leads, sane', phase'', reclaims.trans reclaims'⟩

/-- A sweep comes to phase `GCSfinalize`. -/
theorem sweeping_ends {done : GCPhase} (notSweepstring : done ≠ .sweepstring) (notSweep : done ≠ .sweep) (sane : s.Sane)
    (notPause : s.gcstate ≠ .pause) (notPropagate : s.gcstate ≠ .propagate) :
    ∃ s', Leads done s s' ∧ s'.Sane ∧ s'.gcstate = .finalize ∧ Reclaims s s' := by
  cases phase : s.gcstate with
  | pause => exact absurd phase notPause
  | propagate => exact absurd phase notPropagate
  | sweepstring =>
    obtain ⟨s₁, leads, sane₁, phase₁, reclaims⟩ := sweepstring_ends notSweepstring s.strt.length (Nat.le_add_left ..) sane phase
    obtain ⟨s', leads', sane', phase', reclaims'⟩ := sweep_ends notSweep s₁.sweepWork (le_refl _) sane₁ phase₁
    exact ⟨s', leads.trans leads', sane', phase', reclaims.trans reclaims'⟩
  | sweep => exact sweep_ends notSweep s.sweepWork (le_refl _) sane phase
  | finalize => exact ⟨s, .refl s, sane, phase, .refl s⟩

/-! ## The mark phase -/

theorem propagatemark_work {rest : List GCRef} (underway : s.Underway) (isGray : s.gray = o :: rest) :
    s.propagatemark.work < s.work := by
  obtain ⟨traversable, nonWhite⟩ := @Marking.listed _ _ _ _ underway.marking o (.inl (isGray ▸ List.mem_cons_self))
  obtain ⟨traverses, -⟩ := propagatemark_spec underway.sound.grounded isGray traversable nonWhite
  have nonWhite₀ : ({ s with gray := rest } : State N).NonWhite o := nonWhite
  have less := traverses.work nonWhite₀ (underway.sound.setGray rest).owned
  have popped : s.work = ({ s with gray := rest } : State N).work + 1 := by
    have same : ({ s with gray := rest } : State N).whites = s.whites := rfl
    simp only [State.work, isGray, List.length_cons, same]
    omega
  omega

/-- A mark phase comes to the atomic step. -/
theorem marking_ends {done : GCPhase} (notPropagate : done ≠ .propagate) (work : Nat) : ∀ {s : State N}, s.work ≤ work →
    s.Underway → s.gcstate = .propagate → ∃ s', Leads done s s' ∧ s'.Underway ∧ s'.gcstate = .propagate ∧ s'.gray = [] ∧
      s'.toBackground = s.toBackground ∧ Keeps s s' ∧ ∀ {P}, Within P s → Within P s' := by
  induction work with
  | zero =>
    intro s enough underway phase
    have isEmpty : s.gray = [] := by
      apply List.length_eq_zero_iff.1
      simp only [State.work] at enough
      omega
    exact ⟨s, .refl s, underway, phase, isEmpty, rfl, (Advances.refl s).keeps, id⟩
  | succ work inductionHypothesis =>
    intro s enough underway phase
    cases isGray : s.gray with
    | nil => exact ⟨s, .refl s, underway, phase, isGray, rfl, (Advances.refl s).keeps, id⟩
    | cons o rest =>
      obtain ⟨underway₁, keeps, -, gcstate⟩ := propagatemark_underway underway isGray
      have background := (propagatemark_updates (.any s)).frame.background
      have less := propagatemark_work underway isGray
      have result : s.singlestep = s.propagatemark := by
        simp only [State.singlestep, phase, isGray, List.isEmpty_cons, Bool.false_eq_true, if_false]
      obtain ⟨s', leads, underway', phase', isEmpty, background', keeps', within⟩ :=
        inductionHypothesis (by omega) underway₁ (gcstate.trans phase)
      refine ⟨s', .step (by rw [phase]; exact notPropagate.symm) (result ▸ leads), underway', phase', isEmpty,
        background'.trans background, keeps.trans keeps', fun before => within ((propagatemark_updates before).within before)⟩

/-! ## Finalizers -/

theorem gctm_tmudata {u : Nat} {rest : List Nat} (tmudata : s.tmudata = u :: rest) :
    s.gctm.tmudata = rest ∧ s.gctm.gcstate = s.gcstate := by
  unfold gctm
  simp only [tmudata]
  rw [linkudata_frame]
  split
  · exact ⟨rfl, rfl⟩
  · exact ⟨rfl, rfl⟩

/-- The last phase comes to the end of the cycle. -/
theorem finalize_ends (left : Nat) : ∀ {s : State N}, s.tmudata.length = left → s.gcstate = .finalize →
    ∃ s', Leads .pause s s' ∧ s'.gcstate = .pause ∧ ∀ r, s.colour r = none → s'.colour r = none := by
  induction left with
  | zero =>
    intro s none phase
    refine ⟨_, .single (by rw [phase]; nofun), ?_, fun r => ?_⟩
    · simp [State.singlestep, phase, List.length_eq_zero_iff.1 none]
    · simp only [State.singlestep, phase, List.length_eq_zero_iff.1 none, List.isEmpty_nil, if_true]
      exact id
  | succ left inductionHypothesis =>
    intro s some phase
    obtain ⟨u, rest, tmudata⟩ : ∃ u rest, s.tmudata = u :: rest :=
      List.exists_cons_of_ne_nil fun isNil => by simp [isNil] at some
    obtain ⟨isRest, gcstate⟩ := gctm_tmudata tmudata
    have result : s.singlestep = s.gctm := by simp [State.singlestep, phase, tmudata]
    obtain ⟨s', leads, phase', freed⟩ := inductionHypothesis (s := s.gctm)
      (by rw [isRest]; simpa [tmudata] using some) (gcstate.trans phase)
    refine ⟨s', .step (by rw [phase]; nofun) (result ▸ leads), phase', fun r isNone => freed r ?_⟩
    obtain ⟨v, colour⟩ := gctm_colour s
    obtain same | ⟨present, -⟩ := colour r
    · exact same.trans isNone
    · exact absurd isNone present

end Gafq.GC.State
