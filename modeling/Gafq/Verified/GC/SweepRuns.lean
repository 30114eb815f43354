import Gafq.Verified.GC.Termination
import Gafq.Verified.GC.WeakTables

/-! # A sweep from its beginning to its end

Whatever the program does in the meantime, a sweep frees every object that was dead when it began,
strings and open upvalues that the program finds again apart, and nothing that was alive.  As live
objects refer to live objects only, nothing that survives is left with a reference to what is gone.
-/

namespace Gafq.GC.State

variable {N : Type} {s s' : State N} {o p r : GCRef}

/-- After the sweep no object that was dead is left. -/
theorem Consistent.noDead (consistent : Consistent nothing s) (phase : s.gcstate = .finalize) (traversable : r.Traversable) :
    s.isdead r = false := by
  apply Bool.eq_false_iff.2
  intro isDead
  have isColour := isdead_iff.1 isDead
  obtain same | isPending := consistent.clean isColour
  · simp at same
  · unfold Pending at isPending
    rw [phase] at isPending
    obtain ⟨u, rfl, -⟩ := isPending
    exact traversable

section Runs

variable [GafqNumber N] {run : Nat → State N} {last : Nat}

theorem Step.spares (step : Step s s') (consistent : Consistent nothing s)
    (phase : s.gcstate = .sweepstring ∨ s.gcstate = .sweep) (live : s.Live r) : s'.Live r := by
  cases step with
  | singlestep => exact (sweepstep_reclaims consistent phase).live live
  | mutates mutates =>
    obtain respects | ⟨env, a, unused, rfl⟩ := mutates.respects
    · apply respects.spares _ live
      rintro isPropagate
      rw [isPropagate] at phase
      cases phase <;> contradiction
    · have colour := newuserdata_colour s env a r
      rw [if_neg] at colour
      · obtain ⟨swept, unswept, thread, same⟩ := newuserdata_frame s env a
        exact (live_congr colour (by rw [same])).2 live
      · rintro rfl
        exact live.allocated unused

theorem Step.dead (step : Step s s') (consistent : Consistent nothing s)
    (phase : s.gcstate = .sweepstring ∨ s.gcstate = .sweep) (traversable : r.Traversable) (isDead : s.isdead r = true) :
    s'.isdead r = true ∨ s'.colour r = none := by
  cases step with
  | singlestep =>
    refine (sweepstep_reclaims consistent phase).dead (Bool.eq_false_iff.2 fun isFixed => ?_) isDead
    obtain isString | rfl := consistent.fixed isFixed
    · cases r with
      | string => exact traversable
      | udata | proto | closure | table | upval | thread => exact isString
    · rw [(consistent.root .mainthread).not_dead] at isDead
      cases isDead
  | mutates mutates =>
    obtain respects | ⟨env, a, unused, rfl⟩ := mutates.respects
    · apply Or.inl
      apply respects.dead _ traversable isDead
      rintro isPropagate
      rw [isPropagate] at phase
      cases phase <;> contradiction
    · have colour := newuserdata_colour s env a r
      rw [if_neg] at colour
      · obtain ⟨swept, unswept, thread, same⟩ := newuserdata_frame s env a
        exact .inl ((isdead_congr colour (by rw [same])).trans isDead)
      · rintro rfl
        exact traversable

theorem SweepRun.consistent (sweep : SweepRun run last) (start : Consistent nothing (run 0)) :
    ∀ i ≤ last, Consistent nothing (run i) := by
  intro i within
  induction i with
  | zero => exact start
  | succ i inductionHypothesis => exact (sweep.step i within).consistent (inductionHypothesis (by omega))

/-- What is alive in the sweep is not freed in the rest of it. -/
theorem SweepRun.live (sweep : SweepRun run last) (start : Consistent nothing (run 0)) {i : Nat} (live : (run i).Live r) :
    ∀ j, i ≤ j → j ≤ last → (run j).Live r := by
  intro j after within
  induction j, after using Nat.le_induction with
  | base => exact live
  | succ j after inductionHypothesis =>
    have consistent := sweep.consistent start j (by omega)
    exact (sweep.step j within).spares consistent (sweep.sweeping j within) (inductionHypothesis (by omega))

/-- What is not freed in the sweep was alive. -/
theorem SweepRun.live_of_survives (sweep : SweepRun run last) (start : Consistent nothing (run 0))
    (traversable : r.Traversable) (survives : ∀ i ≤ last, (run i).colour r ≠ none) : ∀ i ≤ last, (run i).Live r := by
  intro i within
  apply live_of_not_dead (survives i within)
  by_contra isDead
  rw [Bool.not_eq_false] at isDead
  have stillDead : ∀ j, i ≤ j → j ≤ last → (run j).isdead r = true := by
    intro j after within'
    induction j, after using Nat.le_induction with
    | base => exact isDead
    | succ j after inductionHypothesis =>
      have consistent := sweep.consistent start j (by omega)
      have before := inductionHypothesis (by omega)
      obtain dead | freed := (sweep.step j within').dead consistent (sweep.sweeping j within') traversable before
      · exact dead
      · exact absurd freed (survives (j + 1) within')
  have atEnd := (sweep.consistent start last (le_refl _)).noDead sweep.done traversable
  rw [stillDead last within (le_refl _)] at atEnd
  cases atEnd

/-- A table that survives the sweep after `atomic` has at no time in it an entry, weak or not, that
refers to an object which the rest of the sweep frees. -/
theorem sweep_spares_entries (occurs : Occurs s) (phase : s.gcstate = .propagate)
    (start : run 0 = s.atomic) (sweep : SweepRun run last) {a : Nat} (survives : ∀ i ≤ last, (run i).colour (.table a) ≠ none)
    {i j : Nat} (ordered : i ≤ j) (within : j ≤ last) (refers : (run i).Refers (.table a) r) : (run j).colour r ≠ none := by
  have consistent : Consistent nothing (run 0) := start ▸ (atomic_consistent (occurs.underway phase)).1
  have live := sweep.live_of_survives consistent (r := .table a) trivial survives i (by omega)
  exact (sweep.live consistent ((sweep.consistent consistent i (by omega)).closed live refers) j ordered within).allocated

/-- The collector alone comes to the end of a sweep. -/
theorem sweepRun_exists (sane : s.Sane) (phase : s.gcstate = .sweepstring) :
    ∃ last, SweepRun (fun i => singlestep^[i] s) last := by
  have steps : ∀ {t : State N}, t.Sane → t.gcstate ≠ .pause ∧ t.gcstate ≠ .propagate →
      ∀ {t' : State N}, Leads .finalize t t' → t'.gcstate = .finalize → ∃ last, SweepRun (fun i => singlestep^[i] t) last := by
    intro t sane phase t' leads done
    induction leads with
    | refl t => exact ⟨0, fun i below => absurd below (Nat.not_lt_zero i), fun i below => absurd below (Nat.not_lt_zero i), done⟩
    | @step t t' notDone _ inductionHypothesis =>
      have sweeping : t.gcstate = .sweepstring ∨ t.gcstate = .sweep := by
        cases gcstate : t.gcstate with
        | pause => exact absurd gcstate phase.1
        | propagate => exact absurd gcstate phase.2
        | sweepstring => exact .inl rfl
        | sweep => exact .inr rfl
        | finalize => exact absurd gcstate notDone
      obtain ⟨last, rest⟩ := inductionHypothesis sane.singlestep (singlestep_phase sane.consistent sweeping) done
      refine ⟨last + 1, fun i below => ?_, fun i below => ?_, rest.done⟩
      · cases i with
        | zero => exact sweeping
        | succ i => exact rest.sweeping i (by omega)
      · show Step (singlestep^[i] t) (singlestep^[i + 1] t)
        rw [Function.iterate_succ_apply']
        exact .singlestep
  have notMarking : s.gcstate ≠ .pause ∧ s.gcstate ≠ .propagate := by rw [phase]; exact ⟨nofun, nofun⟩
  obtain ⟨s', leads, -, done, -⟩ := @sweeping_ends _ _ .finalize nofun nofun sane notMarking.1 notMarking.2
  exact steps sane notMarking leads done

theorem keysMarked_marking : Occurs keysMarked := .run (Run.fullRun keysMarked_run)

/-- The table with weak keys keeps an entry for the userdata on the stack, which is not freed. -/
theorem sweep_spares_entries_keysMarked : ((keysMarked.atomic.table 3).h.node 0).val = .number 5 ∧
    ∃ last, ∀ j ≤ last, (singlestep^[j] keysMarked.atomic).colour (.udata 0) ≠ none := by
  obtain ⟨phase, isEntry, value, inside, inUse, onStack⟩ :
      keysMarked.gcstate = .propagate ∧ gcvalue ((keysMarked.atomic.table 3).h.node 0).key = some (.udata 0) ∧
      ((keysMarked.atomic.table 3).h.node 0).val = .number 5 ∧ 0 < (keysMarked.atomic.table 3).h.sizenode ∧
      2 < (keysMarked.atomic.thread keysMarked.atomic.running).top ∧
      gcvalue ((keysMarked.atomic.thread keysMarked.atomic.running).stack 2) = some (.table 3) := by
    decide +kernel
  obtain ⟨consistent, -, notGray, -⟩ := atomic_consistent (keysMarked_marking.underway phase)
  have sweepstring : keysMarked.atomic.gcstate = .sweepstring := by rw [atomic_eq]
  obtain ⟨t, atomic⟩ : ∃ t, t = keysMarked.atomic := ⟨_, rfl⟩
  rw [← atomic] at isEntry value inside inUse onStack consistent notGray sweepstring ⊢
  obtain ⟨last, sweep⟩ := sweepRun_exists ⟨consistent, notGray⟩ sweepstring
  have live : t.Live (.table 3) := consistent.live (reachable_slot inUse onStack)
  have survives : ∀ i ≤ last, (singlestep^[i] t).colour (.table 3) ≠ none := fun i before =>
    (sweep.live consistent (i := 0) live i (Nat.zero_le i) before).allocated
  have used : ((t.table 3).h.node 0).val ≠ .nil := by
    rw [value]
    nofun
  exact ⟨value, last, fun j within => sweep_spares_entries keysMarked_marking phase atomic sweep survives (Nat.zero_le j) within
    (.inr (.inr ⟨0, inside, used, .inl isEntry⟩))⟩

end Runs

end Gafq.GC.State
