import Gafq.Verified.GC.MarkedBytes
import Gafq.Verified.GC.Completeness

/-! # The estimate in the sweep

`g->estimate` is set in the atomic step, and each step of the sweep takes from it what has been freed.
As long as it is not smaller than the dead objects, the subtraction does not wrap.  The exception is the
last step, in which `checkSizes` gives back memory that may not have been there when the estimate was
made.
-/

namespace Gafq.GC

open State

variable {N : Type}

namespace State

variable {s s' : State N} {r : GCRef}

theorem mem_allocated (owned : s.Owned) : r ∈ s.allocated ↔ s.colour r ≠ none := by
  refine ⟨fun member => (Finset.mem_filter.1 member).2, fun present => ?_⟩
  exact Finset.mem_filter.2 ⟨List.mem_toFinset.2 (owned.mem_objects present), present⟩

theorem allocated_congr (owned : s.Owned) (owned' : s'.Owned) (allocated : ∀ r, s'.colour r ≠ none ↔ s.colour r ≠ none) :
    s'.allocated = s.allocated := by
  ext r
  rw [mem_allocated owned, mem_allocated owned', allocated]

/-! ## What a sweep frees -/

/-- The objects that the sweep will free. -/
def condemned (s : State N) : Finset GCRef := s.allocated.filter fun r => s.collects r = true

theorem mem_condemned (owned : s.Owned) : r ∈ s.condemned ↔ s.collects r = true := by
  refine ⟨fun member => (Finset.mem_filter.1 member).2, fun collects => ?_⟩
  refine Finset.mem_filter.2 ⟨(mem_allocated owned).2 ?_, collects⟩
  rw [isdead_iff.1 (collects_iff.1 collects).1]
  nofun

/-- What a part of the sweep frees comes off both sums. -/
theorem Reclaims.sums (reclaims : Reclaims s s') (owned : s.Owned) (owned' : s'.Owned) (size : GCRef → Nat) :
    ∃ freed, freed ≤ ∑ r ∈ s.condemned, s.bytes size r ∧
      ∑ r ∈ s.allocated, s.bytes size r = ∑ r ∈ s'.allocated, s'.bytes size r + freed ∧
      ∑ r ∈ s'.condemned, s'.bytes size r + freed ≤ ∑ r ∈ s.condemned, s.bytes size r ∧
      (s'.condemned = ∅ → freed = ∑ r ∈ s.condemned, s.bytes size r) := by
  have sizes : ∀ r, s'.bytes size r = s.bytes size r := bytes_fades reclaims.fades size
  have stays : s'.allocated ⊆ s.allocated := fun r member =>
    (mem_allocated owned).2 (reclaims.allocated ((mem_allocated owned').1 member))
  have freed : s.allocated \ s'.allocated ⊆ s.condemned := by
    intro r member
    obtain ⟨before, gone⟩ := Finset.mem_sdiff.1 member
    rw [mem_allocated owned', not_not] at gone
    rw [mem_condemned owned]
    obtain same | ⟨white, -⟩ | ⟨-, collects⟩ := reclaims.colour r
    · exact absurd (same.symm.trans gone) ((mem_allocated owned).1 before)
    · rw [white] at gone
      cases gone
    · exact collects
  have rest : s'.condemned ⊆ s.condemned \ (s.allocated \ s'.allocated) := by
    intro r member
    have collects := (mem_condemned owned').1 member
    have isWhite := isdead_iff.1 (collects_iff.1 collects).1
    have present' : r ∈ s'.allocated := (mem_allocated owned').2 (by rw [isWhite]; nofun)
    refine Finset.mem_sdiff.2 ⟨(mem_condemned owned).2 ?_, fun gone => (Finset.mem_sdiff.1 gone).2 present'⟩
    obtain same | ⟨white, -⟩ | ⟨gone, -⟩ := reclaims.colour r
    · exact (collects_congr same reclaims.currentwhite reclaims.fixed).symm.trans collects
    · rw [white, reclaims.currentwhite] at isWhite
      simp at isWhite
    · rw [gone] at isWhite
      cases isWhite
  simp only [sizes]
  have whole := Finset.sum_sdiff (f := s.bytes size) stays
  have dead := Finset.sum_sdiff (f := s.bytes size) freed
  have fewer := Finset.sum_le_sum_of_subset (f := s.bytes size) rest
  refine ⟨∑ r ∈ s.allocated \ s'.allocated, s.bytes size r, Finset.sum_le_sum_of_subset freed, by omega, by omega,
    fun none => ?_⟩
  refine le_antisymm (Finset.sum_le_sum_of_subset freed) (Finset.sum_le_sum_of_subset fun r member => ?_)
  -- all that was dead has been freed
  have collects := (mem_condemned owned).1 member
  obtain ⟨isDead, notFixed⟩ := collects_iff.1 collects
  refine Finset.mem_sdiff.2 ⟨(Finset.mem_filter.1 member).1, fun present => ?_⟩
  obtain isDead' | gone := reclaims.dead notFixed isDead
  · have still : r ∈ s'.condemned := (mem_condemned owned').2 (collects_iff.2 ⟨isDead', reclaims.fixed ▸ notFixed⟩)
    rw [none] at still
    exact Finset.notMem_empty _ still
  · exact (mem_allocated owned').1 present gone

/-- At the end of the sweep there is nothing dead. -/
theorem Consistent.noneCondemned (consistent : Consistent nothing s) (phase : s.gcstate = .finalize) : s.condemned = ∅ := by
  apply Finset.eq_empty_of_forall_notMem
  intro r member
  have isWhite := isdead_iff.1 (collects_iff.1 ((mem_condemned consistent.owned).1 member)).1
  obtain same | isPending := consistent.clean isWhite
  · simp at same
  · simp only [Pending, phase] at isPending
    obtain ⟨u, rfl, waits⟩ := isPending
    have notDead := (consistent.tmudata waits).not_dead
    rw [isdead_iff.2 isWhite] at notDead
    cases notDead

/-- In a mark phase, and before it, nothing is dead. -/
theorem noneCondemned_of_live (owned : s.Owned) (live : ∀ {r}, s.colour r ≠ none → s.Live r) : s.condemned = ∅ := by
  apply Finset.eq_empty_of_forall_notMem
  intro r member
  have isDead := (collects_iff.1 ((mem_condemned owned).1 member)).1
  have notDead := (live (r := r) (by rw [isdead_iff.1 isDead]; nofun)).not_dead
  rw [isDead] at notDead
  cases notDead

/-! ## The string table -/

theorem objbarrier_strt (s : State N) (p o : GCRef) : (s.objbarrier p o).strt = s.strt := by
  unfold objbarrier barrierf
  split
  · split
    · rw [(reallymarkobject_repaints (P := fun _ => True) (.any s) trivial).unchanged.background]
    · rfl
  · rfl

theorem linkupval_strt (s : State N) (u : Nat) : (s.linkupval u).strt = s.strt := by
  have linked : (s.linkroot (.upval u)).strt = s.strt := by rw [linkroot_frame]
  unfold linkupval barrier
  simp only
  split
  · split
    · split
      · rw [objbarrier_strt]
        exact linked
      · exact linked
    · exact linked
  · exact linked

theorem closeLoop_strt (th level : Nat) (us : List Nat) : ∀ s : State N, (s.closeLoop th level us).strt = s.strt := by
  induction us with
  | nil => exact fun _ => rfl
  | cons u us inductionHypothesis =>
    intro s
    unfold closeLoop
    split
    · rw [inductionHypothesis]
      unfold closeupval
      split
      · rfl
      · rw [linkupval_strt]
        rfl
    · rfl

theorem sweepupvals_strt (us : List Nat) : ∀ s : State N, (s.sweepupvals us).2.strt = s.strt := by
  induction us with
  | nil => exact fun _ => rfl
  | cons u us inductionHypothesis =>
    intro s
    unfold sweepupvals
    split
    · rw [inductionHypothesis]
      rfl
    · exact inductionHypothesis (s.makewhite (.upval u))

theorem sweepone_strt (s : State N) : s.sweepone.strt = s.strt := by
  have swept : ∀ o, (s.sweepopenupval o).strt = s.strt := by
    intro o
    unfold sweepopenupval
    split
    · exact sweepupvals_strt _ s
    · rfl
  unfold sweepone
  split
  · rfl
  · next o rest _ =>
    simp only
    split
    · unfold freeobj
      split
      · rw [show ∀ t : State N, (t.free _).strt = t.strt from fun _ => rfl, State.close, closeLoop_strt]
        exact swept _
      · exact swept _
    · exact swept _

theorem sweeplist_strt (count : Nat) : ∀ s : State N, (s.sweeplist count).strt = s.strt := by
  induction count with
  | zero => exact fun _ => rfl
  | succ count inductionHypothesis => exact fun s => (inductionHypothesis _).trans (sweepone_strt s)

theorem resizestrt_length (phase : s.gcstate ≠ .sweepstring) {newsize : Nat} (positive : 0 < newsize) :
    (s.resizestrt newsize).strt.length = newsize := by
  obtain ⟨length, -⟩ := @chainAll_perm (s.bucket newsize) s.strt.flatten (List.replicate newsize []) fun a => by
    rw [List.length_replicate]
    exact lmod_lt positive
  unfold resizestrt
  rw [if_neg phase]
  exact length.trans List.length_replicate

theorem checkSizes_length (phase : s.gcstate ≠ .sweepstring) : s.checkSizes.strt.length =
    if s.nuse < s.strt.length / 4 ∧ minStrTabSize * 2 < s.strt.length then s.strt.length / 2 else s.strt.length := by
  unfold checkSizes
  split
  · next sparse =>
    apply resizestrt_length phase
    have := sparse.2
    simp only [minStrTabSize] at this
    omega
  · rfl

theorem singlestep_last (phase : s.gcstate = .sweep) : s.singlestep =
    if s.LastSweep then { (s.sweeplist sweepMax).checkSizes with gcstate := .finalize } else s.sweeplist sweepMax := by
  simp only [State.singlestep, phase, LastSweep, true_and]

/-! ## The program -/

section Program

variable [GafqNumber N]

theorem Mutates.gcstate {s s' : State N} (mutates : Mutates s s') : s'.gcstate = s.gcstate := by
  obtain respects | ⟨env, u, -, rfl⟩ := mutates.respects
  · exact respects.gcstate
  · obtain ⟨swept, unswept, thread, same⟩ := newuserdata_frame s env u
    rw [same]

theorem Mutates.noneCondemned {s s' : State N} {r : GCRef} (mutates : Mutates s s') (phase : s.gcstate ≠ .propagate)
    (collects : s'.collects r = true) : s.collects r = true := by
  obtain respects | ⟨env, u, -, rfl⟩ := mutates.respects
  · exact respects.noneCondemned phase collects
  · obtain ⟨swept, unswept, thread, same⟩ := newuserdata_frame s env u
    have isWhite := isdead_iff.1 (collects_iff.1 collects).1
    have currentwhite : (s.newuserdata env u).currentwhite = s.currentwhite := by rw [same]
    rw [newuserdata_colour, currentwhite] at isWhite
    by_cases self : r = .udata u
    · rw [if_pos self] at isWhite
      simp at isWhite
    · rw [if_neg self] at isWhite
      have notFixed := (collects_iff.1 collects).2
      rw [same] at notFixed
      exact collects_iff.2 ⟨isdead_iff.2 isWhite, by simpa [self] using notFixed⟩

end Program

end State

/-! ## One step of the sweep -/

namespace Accounts

variable {a a' : Accounts N}

theorem deadbytes_eq (a : Accounts N) : a.deadbytes = ∑ r ∈ a.heap.condemned, a.heap.bytes a.size r := rfl

theorem totalbytes_eq (a : Accounts N) : a.totalbytes = ∑ r ∈ a.heap.allocated, a.heap.bytes a.size r +
    sizeofPointer * a.heap.strt.length + a.buffsize + a.other := rfl

theorem estimate_toNat {estimate : UInt64} {old new : Nat} (fits : old < 2 ^ 64) (less : new ≤ old)
    (covered : old - new ≤ estimate.toNat) :
    (estimate - (UInt64.ofNat old - UInt64.ofNat new)).toNat = estimate.toNat - (old - new) := by
  have small : UInt64.ofNat new ≤ UInt64.ofNat old := by
    rw [UInt64.le_iff_toNat_le, UInt64.toNat_ofNat_of_lt' fits, UInt64.toNat_ofNat_of_lt' (less.trans_lt fits)]
    exact less
  have difference : (UInt64.ofNat old - UInt64.ofNat new).toNat = old - new := by
    rw [UInt64.toNat_sub_of_le _ _ small, UInt64.toNat_ofNat_of_lt' fits, UInt64.toNat_ofNat_of_lt' (less.trans_lt fits)]
  rw [UInt64.toNat_sub_of_le _ _ (by rw [UInt64.le_iff_toNat_le, difference]; exact covered), difference]

/-- What a step of the sweep frees and what it gives back. -/
structure SweepStep (a : Accounts N) (freed given : Nat) : Prop where
  bounded : freed ≤ a.deadbytes
  total : a.totalbytes = a.singlestep.totalbytes + freed + given
  dead : a.singlestep.deadbytes + freed ≤ a.deadbytes
  estimate : a.singlestep.estimate = a.estimate - (UInt64.ofNat a.totalbytes - UInt64.ofNat a.singlestep.totalbytes)
  notLast : ¬ a.heap.LastSweep → given = 0
  last : a.heap.LastSweep → freed = a.deadbytes ∧ given = a.shrinkage

theorem sweepStep (sane : a.heap.Sane) (sweeping : a.Sweeping) : ∃ freed given, SweepStep a freed given := by
  have sane' := sane.singlestep
  obtain ⟨freed, less, total, dead, all⟩ :=
    (sweepstep_reclaims sane.consistent sweeping).sums sane.consistent.owned sane'.consistent.owned a.size
  obtain phase | phase := sweeping
  · have result : a.singlestep = { a with
        heap := a.heap.singlestep
        estimate := a.estimate - (UInt64.ofNat a.totalbytes - UInt64.ofNat { a with heap := a.heap.singlestep }.totalbytes) } := by
      simp only [Accounts.singlestep, phase]
    have length : a.heap.singlestep.strt.length = a.heap.strt.length := by
      simp only [State.singlestep, phase]
      split <;> exact (sweepbucket_frame a.heap).1
    refine ⟨freed, 0, less, ?_, ?_, ?_, fun _ => rfl, fun last => ?_⟩
    · simp only [result, totalbytes_eq, length]
      omega
    · rw [result]
      exact dead
    · rw [result]
      rfl
    · rw [last.1] at phase
      cases phase
  · have isLast := singlestep_last phase
    by_cases last : a.heap.LastSweep
    · rw [if_pos last] at isLast
      have phase' := (sweeplist_consistent sweepMax sane.consistent phase).2.2
      have length : a.heap.singlestep.strt.length =
          if a.heap.nuse < a.heap.strt.length / 4 ∧ minStrTabSize * 2 < a.heap.strt.length then a.heap.strt.length / 2
          else a.heap.strt.length := by
        have sizes := checkSizes_length (s := a.heap.sweeplist sweepMax) (by rw [phase']; rintro ⟨⟩)
        rw [nuse, sweeplist_strt] at sizes
        rw [isLast]
        exact sizes
      have result : a.singlestep = { a with
          heap := a.heap.singlestep, buffsize := checkBuffer a.buffsize
          estimate := a.estimate - (UInt64.ofNat a.totalbytes -
            UInt64.ofNat { a with heap := a.heap.singlestep, buffsize := checkBuffer a.buffsize }.totalbytes) } := by
        simp only [Accounts.singlestep, phase, if_pos last]
      have smaller : checkBuffer a.buffsize ≤ a.buffsize := by
        unfold checkBuffer
        split <;> omega
      have none := sane'.consistent.noneCondemned (by rw [isLast])
      refine ⟨freed, a.shrinkage, less, ?_, ?_, ?_, (absurd last ·), fun _ => ⟨all none, rfl⟩⟩
      · simp only [result, totalbytes_eq, length, shrinkage, sizeofPointer]
        by_cases sparse : a.heap.nuse < a.heap.strt.length / 4 ∧ minStrTabSize * 2 < a.heap.strt.length
        · simp only [if_pos sparse]
          omega
        · simp only [if_neg sparse]
          omega
      · rw [result]
        exact dead
      · rw [result]
        rfl
    · rw [if_neg last] at isLast
      have length : a.heap.singlestep.strt.length = a.heap.strt.length := by rw [isLast, sweeplist_strt]
      have result : a.singlestep = { a with
          heap := a.heap.singlestep
          estimate := a.estimate -
            (UInt64.ofNat a.totalbytes - UInt64.ofNat { a with heap := a.heap.singlestep }.totalbytes) } := by
        simp only [Accounts.singlestep, phase, if_neg last]
      refine ⟨freed, 0, less, ?_, ?_, ?_, fun _ => rfl, (absurd · last)⟩
      · simp only [result, totalbytes_eq, length]
        omega
      · rw [result]
        exact dead
      · rw [result]
        rfl

namespace SweepStep

variable {freed given : Nat}

theorem noWrap_iff (step : SweepStep a freed given) : a.NoWrap ↔ freed + given ≤ a.estimate.toNat := by
  have total := step.total
  unfold NoWrap
  omega

/-- The estimate covers the dead objects also after the step. -/
theorem covered (step : SweepStep a freed given) (fits : a.totalbytes < 2 ^ 64) (noWrap : a.NoWrap)
    (rest : a.deadbytes + given ≤ a.estimate.toNat) : a.singlestep.deadbytes ≤ a.singlestep.estimate.toNat := by
  have total := step.total
  have dead := step.dead
  rw [step.estimate, estimate_toNat fits noWrap.1 noWrap.2]
  omega

end SweepStep

/-! ## Runs -/

/-- What holds in a run whose steps meet the condition. -/
structure Balanced (a : Accounts N) : Prop where
  heap : a.heap.Underway ∧ a.heap.gcstate = .propagate ∧ a.mode ≠ .program ∨ a.heap.Sane
  fits : a.totalbytes < 2 ^ 64
  covered : a.Sweeping → a.deadbytes ≤ a.estimate.toNat

theorem Balanced.sane (balanced : a.Balanced) (notPropagate : a.heap.gcstate ≠ .propagate ∨ a.mode = .program) :
    a.heap.Sane := by
  obtain ⟨-, phase, mode⟩ | sane := balanced.heap
  · exact notPropagate.elim (absurd phase) (absurd · mode)
  · exact sane

theorem Balanced.sweepStep (balanced : a.Balanced) (sweeping : a.Sweeping) : ∃ freed given, SweepStep a freed given := by
  refine Accounts.sweepStep (balanced.sane (.inl ?_)) sweeping
  obtain phase | phase := sweeping <;> rw [phase] <;> nofun

/-- A step of the sweep does not wrap unless it is the last one, and then only if the estimate does not
cover what is left and what `checkSizes` gives back. -/
theorem Balanced.noWrap_iff (balanced : a.Balanced) (sweeping : a.Sweeping) : a.NoWrap ↔ a.Covered := by
  obtain ⟨freed, given, step⟩ := balanced.sweepStep sweeping
  rw [step.noWrap_iff]
  by_cases last : a.heap.LastSweep
  · obtain ⟨rfl, rfl⟩ := step.last last
    exact ⟨fun less _ => less, fun covered => covered last⟩
  · have bounded := step.bounded
    have covered := balanced.covered sweeping
    rw [step.notLast last]
    exact ⟨fun _ isLast => absurd isLast last, fun _ => by omega⟩

/-! ## One step of the collector -/

theorem singlestep_heap (a : Accounts N) :
    a.singlestep.heap = a.heap.singlestep ∧ a.singlestep.mode = a.mode ∧ a.singlestep.size = a.size := by
  unfold Accounts.singlestep
  simp only
  split
  · exact ⟨rfl, rfl, rfl⟩
  · split <;> exact ⟨rfl, rfl, rfl⟩
  · exact ⟨rfl, rfl, rfl⟩
  · split <;> exact ⟨rfl, rfl, rfl⟩
  · split
    · exact ⟨rfl, rfl, rfl⟩
    · split <;> exact ⟨rfl, rfl, rfl⟩

theorem Balanced.underway (balanced : a.Balanced) (phase : a.heap.gcstate = .propagate) : a.heap.Underway :=
  balanced.heap.elim And.left fun sane => sane.consistent.underway phase

theorem atomic_keeps {s : State N} (underway : s.Underway) : Keeps s s.atomic := by
  refine (atomic_consistent underway).2.2.2.2.2.trans ?_
  rw [atomic_eq]
  generalize s.finishMarking = marked
  exact ⟨fun root => root.congr rfl rfl rfl rfl, fun _ => Iff.rfl, id, rfl, rfl,
    .of_eq (by funext o r; cases o <;> rfl) rfl rfl rfl rfl, rfl⟩

theorem totalbytes_keeps {heap : State N} (keeps : Keeps a.heap heap) (owned : a.heap.Owned) (owned' : heap.Owned) :
    ({ a with heap } : Accounts N).totalbytes = a.totalbytes := by
  simp only [totalbytes_eq, keeps.strt, allocated_congr owned owned' keeps.allocated, bytes_fades keeps.fades]

/-- Marking neither allocates nor frees anything. -/
theorem Balanced.marking_totalbytes (balanced : a.Balanced)
    (phase : a.heap.gcstate = .pause ∨ a.heap.gcstate = .propagate) : a.singlestep.totalbytes = a.totalbytes := by
  have keeps : Keeps a.heap a.heap.singlestep ∧ a.heap.singlestep.Owned := by
    obtain phase | phase := phase
    · have sane := balanced.sane (.inl (by rw [phase]; nofun))
      have marked := markroot_underway sane.consistent (.inl phase) sane.notGray
      rw [show a.heap.singlestep = a.heap.markroot by simp only [State.singlestep, phase]]
      exact ⟨marked.2.1, marked.1.sound.owned⟩
    · have underway := balanced.underway phase
      obtain ⟨-, isAtomic⟩ | ⟨isMark, underway', -⟩ := singlestep_underway underway phase
      · rw [isAtomic]
        exact ⟨atomic_keeps underway, (atomic_consistent underway).1.owned⟩
      · refine ⟨?_, underway'.sound.owned⟩
        rw [isMark]
        cases isGray : a.heap.gray with
        | nil =>
          have same : a.heap.propagatemark = a.heap := by rw [propagatemark, isGray]
          rw [same]
          exact (Advances.refl _).keeps
        | cons o rest => exact (propagatemark_underway underway isGray).2.1
  have owned : a.heap.Owned := by
    obtain ⟨underway, -⟩ | sane := balanced.heap
    · exact underway.sound.owned
    · exact sane.consistent.owned
  have others : ∃ estimate, a.singlestep = { a with heap := a.heap.singlestep, estimate } := by
    obtain phase | phase := phase
    · exact ⟨a.estimate, by simp only [Accounts.singlestep, phase]⟩
    · simp only [Accounts.singlestep, phase]
      split <;> exact ⟨_, rfl⟩
  obtain ⟨estimate, result⟩ := others
  rw [result]
  exact totalbytes_keeps keeps.1 owned keeps.2

/-- The white objects, with `dummynode` counted for each table that has no nodes. -/
def whitebytes (a : Accounts N) : Nat :=
  ∑ r ∈ a.heap.allocated.filter fun r => a.heap.iswhite r = true, a.heap.traversed a.size r

theorem Balanced.atomic_totalbytes (balanced : a.Balanced) (phase : a.heap.gcstate = .propagate) :
    ({ a with heap := a.heap.atomic } : Accounts N).totalbytes = a.totalbytes :=
  have underway := balanced.underway phase
  totalbytes_keeps (atomic_keeps underway) underway.sound.owned (atomic_consistent underway).1.owned

theorem atomic_singlestep (phase : a.heap.gcstate = .propagate) (isGray : a.heap.gray = []) : a.singlestep = { a with
    heap := a.heap.atomic
    estimate := UInt64.ofNat { a with heap := a.heap.atomic }.totalbytes - UInt64.ofNat (a.heap.udsize a.size) } := by
  simp [Accounts.singlestep, State.singlestep, phase, isGray]

/-- What is traversed in the atomic step and what is left dead have been white before. -/
theorem Balanced.estimated (balanced : a.Balanced) (phase : a.heap.gcstate = .propagate) (isGray : a.heap.gray = [])
    (marked : a.whitebytes ≤ a.totalbytes) : a.Estimated := by
  have underway := balanced.underway phase
  have owned := underway.sound.owned
  have whites : a.whitebytes = ∑ r ∈ a.heap.whites, a.heap.traversed a.size r := by
    refine Finset.sum_congr (Finset.ext fun r => ?_) fun _ _ => rfl
    rw [mem_whites owned, Finset.mem_filter, mem_allocated owned, and_iff_right_of_imp fun white => ?_]
    obtain ⟨bit, colour⟩ := iswhite_iff.1 white
    simp [colour]
  unfold Estimated
  rw [atomic_singlestep phase isGray]
  exact (@atomic_bytes _ _ a.size underway).trans (whites ▸ marked)

/-- The first estimate covers what is dead after the atomic step. -/
theorem Balanced.atomic (balanced : a.Balanced) (phase : a.heap.gcstate = .propagate) (isGray : a.heap.gray = [])
    (estimated : a.Estimated) : a.singlestep.deadbytes ≤ a.singlestep.estimate.toNat ∧
      a.singlestep.estimate.toNat ≤ a.singlestep.totalbytes := by
  have total := balanced.atomic_totalbytes phase
  have fits := balanced.fits
  have fits' : a.heap.udsize a.size < 2 ^ 64 := by
    unfold Estimated at estimated
    omega
  have small : UInt64.ofNat (a.heap.udsize a.size) ≤ UInt64.ofNat a.totalbytes := by
    unfold Estimated at estimated
    rw [UInt64.le_iff_toNat_le, UInt64.toNat_ofNat_of_lt' fits, UInt64.toNat_ofNat_of_lt' fits']
    omega
  have estimate : a.singlestep.estimate.toNat = a.totalbytes - a.heap.udsize a.size := by
    rw [atomic_singlestep phase isGray]
    simp only
    rw [total, UInt64.toNat_sub_of_le _ _ small, UInt64.toNat_ofNat_of_lt' fits, UInt64.toNat_ofNat_of_lt' fits']
  have total' := balanced.marking_totalbytes (.inr phase)
  unfold Estimated at estimated
  rw [estimate, total']
  omega

theorem not_sweeping (phase : a.heap.gcstate = .pause ∨ a.heap.gcstate = .propagate ∨ a.heap.gcstate = .finalize) :
    ¬ a.Sweeping := by
  unfold Sweeping
  obtain phase | phase | phase := phase <;> simp [phase]

theorem Balanced.singlestep (balanced : a.Balanced)
    (marked : a.heap.gcstate = .propagate → a.heap.gray = [] → a.Estimated) (swept : a.Covered) (fits : a.singlestep.totalbytes < 2 ^ 64) : a.singlestep.Balanced := by
  obtain ⟨heap, mode, -⟩ := singlestep_heap a
  refine ⟨?_, fits, fun sweeping => ?_⟩
  · rw [heap, mode]
    obtain ⟨underway, phase, notProgram⟩ | sane := balanced.heap
    · obtain ⟨-, isAtomic⟩ | ⟨-, underway', phase'⟩ := singlestep_underway underway phase
      · obtain ⟨consistent, -, notGray, -⟩ := atomic_consistent underway
        rw [isAtomic]
        exact .inr ⟨consistent, notGray⟩
      · exact .inl ⟨underway', phase', notProgram⟩
    · exact .inr sane.singlestep
  · cases phase : a.heap.gcstate with
    | pause =>
      refine absurd sweeping (not_sweeping (.inr (.inl ?_)))
      rw [heap]
      simp only [State.singlestep, phase]
      rfl
    | propagate =>
      obtain ⟨isGray, -⟩ | ⟨-, -, phase'⟩ := singlestep_underway (balanced.underway phase) phase
      · exact (balanced.atomic phase isGray (marked phase isGray)).1
      · exact absurd sweeping (not_sweeping (.inr (.inl (heap ▸ phase'))))
    | sweepstring | sweep =>
      have before : a.Sweeping := by simp [Sweeping, phase]
      obtain ⟨freed, given, step⟩ := balanced.sweepStep before
      apply step.covered balanced.fits ((balanced.noWrap_iff before).2 swept)
      by_cases last : a.heap.LastSweep
      · rw [(step.last last).2]
        exact swept last
      · rw [step.notLast last]
        exact balanced.covered before
    | finalize =>
      refine absurd sweeping (not_sweeping ?_)
      rw [heap]
      simp only [State.singlestep, phase]
      cases tmudata : a.heap.tmudata with
      | nil => exact .inl rfl
      | cons u rest => exact .inr (.inr ((gctm_tmudata tmudata).2.trans phase))

/-! ## The program -/

section Program

variable [GafqNumber N]

/-- The program makes nothing dead, and dead objects keep their sizes. -/
theorem Program.deadbytes_le (program : Program a a') (sane : a.heap.Sane) (sane' : a'.heap.Sane)
    (phase : a.heap.gcstate ≠ .propagate) : a'.deadbytes ≤ a.deadbytes := by
  have collects : ∀ {r}, a'.heap.collects r = true → a.heap.collects r = true := by
    intro r collects
    obtain same | mutates := program.heap
    · rwa [same] at collects
    · exact mutates.noneCondemned phase collects
  have subset : a'.heap.condemned ⊆ a.heap.condemned := fun r member =>
    (mem_condemned sane.consistent.owned).2 (collects ((mem_condemned sane'.consistent.owned).1 member))
  rw [deadbytes_eq, deadbytes_eq]
  refine le_trans (le_of_eq (Finset.sum_congr rfl fun r member => ?_)) (Finset.sum_le_sum_of_subset subset)
  have isDead := (collects_iff.1 ((mem_condemned sane.consistent.owned).1 (subset member))).1
  refine program.bytes (r := r) (fun gone => ?_) fun reachable => ?_
  · cases gone.symm.trans (isdead_iff.1 isDead)
  · rw [(sane.consistent.live reachable).not_dead] at isDead
    cases isDead

theorem Program.balanced (program : Program a a') (balanced : a.Balanced) (mode : a.mode = .program)
    (fits : a'.totalbytes < 2 ^ 64) : a'.Balanced := by
  have sane := balanced.sane (.inr mode)
  have gcstate : a'.heap.gcstate = a.heap.gcstate := program.heap.elim (fun same => by rw [same]) fun mutates => mutates.gcstate
  have sane' : a'.heap.Sane := program.heap.elim (fun same => same ▸ sane) fun mutates => mutates.sane sane
  refine ⟨.inr sane', fits, fun sweeping => ?_⟩
  rw [Sweeping, gcstate] at sweeping
  rw [program.estimate]
  refine (program.deadbytes_le sane sane' ?_).trans (balanced.covered sweeping)
  obtain phase | phase := sweeping <;> rw [phase] <;> nofun

end Program

/-! ## Whole runs -/

theorem IsNew.balanced (isNew : a.IsNew) : a.Balanced := by
  refine ⟨.inr (isNew.heap ▸ newstate_sane), isNew.fits, fun sweeping => ?_⟩
  refine absurd sweeping (not_sweeping (.inl ?_))
  rw [isNew.heap]
  exact newstate_phase

section Runs

variable [GafqNumber N]

theorem Balanced.step (balanced : a.Balanced) (step : Step a a') (fits : a'.totalbytes < 2 ^ 64) (covers : Covers a a') :
    a'.Balanced := by
  cases step with
  | singlestep => exact balanced.singlestep covers.marked covers.swept fits
  | checkstacksizes th phase => exact ⟨balanced.heap, fits, (absurd · (not_sweeping (.inr (.inl phase))))⟩
  | program mode program => exact program.balanced balanced mode fits
  | openspace n =>
    unfold Accounts.openspace at fits ⊢
    split
    · next larger =>
      rw [if_pos larger] at fits
      exact ⟨balanced.heap, fits, balanced.covered⟩
    · exact balanced
  | returns mode finalizers =>
    exact ⟨balanced.heap, fits, fun sweeping => covers.returned sweeping (by rw [finalizers]; exact Nat.lt_succ_self _)⟩
  | raises => exact ⟨balanced.heap, fits, balanced.covered⟩
  | fullgc mode =>
    have sane := balanced.sane (.inr mode)
    refine ⟨.inr sane.abandon, fits, fun sweeping => ?_⟩
    obtain ⟨freed, -, -, fewer, -⟩ :=
      (abandon_reclaims a.heap).sums sane.consistent.owned sane.abandon.consistent.owned a.size
    have less : ({ a with heap := a.heap.abandon, mode := .finishing } : Accounts N).deadbytes ≤ a.deadbytes :=
      (Nat.le_add_right _ _).trans fewer
    by_cases phase : a.heap.gcstate = .pause ∨ a.heap.gcstate = .propagate
    · -- a mark phase is given up: nothing is dead
      have none := noneCondemned_of_live sane.consistent.owned (sane.consistent.live_of_allocated phase)
      rw [deadbytes_eq a, none, Finset.sum_empty] at less
      exact (Nat.le_zero.1 less).symm ▸ Nat.zero_le _
    · have same : a.heap.abandon = a.heap := if_neg phase
      have before : a.Sweeping := by
        unfold Sweeping at sweeping ⊢
        rwa [← same]
      exact less.trans (balanced.covered before)
  | markroot mode phase =>
    have sane := balanced.sane (.inl (by rw [phase]; nofun))
    have underway := (markroot_underway sane.consistent (.inr phase) sane.notGray).1
    exact ⟨.inl ⟨underway, rfl, nofun⟩, fits, (absurd · (not_sweeping (.inr (.inl rfl))))⟩
  | finalizes mode phase =>
    exact ⟨.inr (balanced.sane (.inl (by rw [phase]; nofun))), fits, balanced.covered⟩

theorem CoveredRun.balanced (run : CoveredRun a a') (isNew : a.IsNew) : a'.Balanced := by
  induction run with
  | refl => exact isNew.balanced
  | tail _ step inductionHypothesis => exact inductionHypothesis.step step.1 step.2.1 step.2.2

/-- In a run whose steps meet the condition, a step of the sweep takes no more from the estimate than
there is if and only if it meets the condition, too. -/
theorem noWrap_iff_covered {start : Accounts N} (isNew : start.IsNew) (run : CoveredRun start a) (sweeping : a.Sweeping) :
    a.NoWrap ↔ a.Covered :=
  (CoveredRun.balanced run isNew).noWrap_iff sweeping

/-! ## The buffer is enlarged in the sweep -/

omit [GafqNumber N] in
/-- The step after which the sweep is over. -/
theorem lastSweep_of_done {s : State N} (sane : s.Sane) (sweeping : s.gcstate = .sweepstring ∨ s.gcstate = .sweep)
    (done : s.singlestep.gcstate = .finalize) : s.LastSweep := by
  obtain phase | phase := sweeping
  · have phase' := (sweepbucket_consistent sane.consistent phase).2.2
    simp only [State.singlestep, phase] at done
    split at done
    · cases done
    · cases phase'.symm.trans done
  · by_contra notLast
    rw [singlestep_last phase, if_neg notLast] at done
    cases ((sweeplist_consistent sweepMax sane.consistent phase).2.2).symm.trans done

/-- The collector alone comes to the last step of a sweep; all the time there is at least as much memory
in use as it has estimated. -/
theorem lastSweep_exists (balanced : a.Balanced) (phase : a.heap.gcstate = .sweepstring) (mode : a.mode = .program)
    (modest : a.estimate.toNat ≤ a.totalbytes) : ∃ b, Run a b ∧ b.Balanced ∧ b.mode = .program ∧ b.heap.LastSweep ∧
      b.estimate.toNat ≤ b.totalbytes ∧ b.totalbytes ≤ a.totalbytes := by
  obtain ⟨last, sweep⟩ := sweepRun_exists (balanced.sane (.inr mode)) phase
  have start : 0 < last := by
    rcases Nat.eq_zero_or_pos last with rfl | positive
    · cases phase.symm.trans sweep.done
    · exact positive
  have steps : ∀ n < last, ∃ b : Accounts N, Run a b ∧ b.Balanced ∧ b.mode = .program ∧ b.heap = State.singlestep^[n] a.heap ∧
      b.estimate.toNat ≤ b.totalbytes ∧ b.totalbytes ≤ a.totalbytes := by
    intro n
    induction n with
    | zero => exact fun _ => ⟨a, .refl, balanced, mode, rfl, modest, le_refl _⟩
    | succ n inductionHypothesis =>
      intro below
      obtain ⟨b, run, balanced, mode, heap, modest, less⟩ := inductionHypothesis (by omega)
      have sweeping : b.Sweeping := by
        unfold Sweeping
        rw [heap]
        exact sweep.sweeping n (by omega)
      have next : b.singlestep.heap = State.singlestep^[n + 1] a.heap := by
        rw [(singlestep_heap b).1, heap, Function.iterate_succ_apply']
      have notLast : ¬ b.heap.LastSweep := by
        intro last
        have phase : b.singlestep.heap.gcstate = .finalize := by
          rw [(singlestep_heap b).1, singlestep_last last.1, if_pos last]
        rw [next] at phase
        obtain still | still := sweep.sweeping (n + 1) below <;> cases phase.symm.trans still
      obtain ⟨freed, given, step⟩ := balanced.sweepStep sweeping
      have total := step.total
      have bounded := step.bounded
      have covered := balanced.covered sweeping
      have fits := balanced.fits
      have noWrap := (balanced.noWrap_iff sweeping).2 (absurd · notLast)
      have estimate := estimate_toNat balanced.fits noWrap.1 noWrap.2
      rw [← step.estimate] at estimate
      rw [step.notLast notLast] at total
      have fits' : b.singlestep.totalbytes < 2 ^ 64 := by omega
      refine ⟨b.singlestep, run.tail ⟨.singlestep (.inl mode), fits'⟩, balanced.singlestep (fun phase => ?_)
        (absurd · notLast) fits', (singlestep_heap b).2.1.trans mode, next, by omega, by omega⟩
      exact absurd sweeping (not_sweeping (.inr (.inl phase)))
  obtain ⟨b, run, balanced, mode, heap, modest, less⟩ := steps (last - 1) (by omega)
  refine ⟨b, run, balanced, mode, ?_, modest, less⟩
  apply lastSweep_of_done (balanced.sane (.inr mode))
  · rw [heap]
    exact sweep.sweeping _ (by omega)
  · rw [heap, ← Function.iterate_succ_apply' State.singlestep, show (last - 1).succ = last from Nat.succ_pred_eq_of_pos start]
    exact sweep.done

omit [GafqNumber N] in
/-- The buffer with a new size. -/
theorem totalbytes_resized (a : Accounts N) (n : Nat) :
    ({ a with buffsize := n } : Accounts N).totalbytes + a.buffsize = a.totalbytes + n := by
  show ∑ r ∈ a.heap.allocated, a.heap.bytes a.size r + sizeofPointer * a.heap.strt.length + n + a.other + a.buffsize =
    a.totalbytes + n
  rw [totalbytes_eq]
  omega

omit [GafqNumber N] in
theorem le_shrinkage (a : Accounts N) : a.buffsize - a.buffsize / 2 ≤ a.shrinkage + minBuffer := by
  have part : a.buffsize - checkBuffer a.buffsize ≤ a.shrinkage := Nat.le_add_left ..
  unfold checkBuffer at part
  by_cases large : minBuffer * 2 < a.buffsize
  · rw [if_pos large] at part
    omega
  · omega

/-- If the program enlarges the buffer before the last step of a sweep, that step wraps. -/
theorem openspace_wraps (balanced : a.Balanced) (mode : a.mode = .program) (last : a.heap.LastSweep)
    (modest : a.estimate.toNat ≤ a.totalbytes) (room : 4 * a.totalbytes + 200 < 2 ^ 64) :
    ∃ b, Run a b ∧ b.Sweeping ∧ ¬ b.NoWrap := by
  obtain ⟨n, isSize⟩ : ∃ n, n = 2 * a.totalbytes + 100 := ⟨_, rfl⟩
  have larger : a.buffsize < n := by
    simp only [isSize, totalbytes_eq]
    omega
  have opened : a.openspace n = { a with buffsize := n } := by
    rw [Accounts.openspace, if_pos larger, max_eq_left (by simp only [minBuffer]; omega)]
  have total := totalbytes_resized a n
  have shrinks := le_shrinkage { a with buffsize := n }
  have fits : ({ a with buffsize := n } : Accounts N).totalbytes < 2 ^ 64 := by omega
  have balanced' : ({ a with buffsize := n } : Accounts N).Balanced := ⟨balanced.heap, fits, balanced.covered⟩
  refine ⟨{ a with buffsize := n }, .single ⟨opened ▸ .openspace _ mode, fits⟩, .inr last.1, ?_⟩
  rw [balanced'.noWrap_iff (.inr last.1)]
  intro covered
  have enough : ({ a with buffsize := n } : Accounts N).deadbytes + ({ a with buffsize := n } : Accounts N).shrinkage ≤
    a.estimate.toNat := covered last
  simp only [minBuffer] at shrinks
  omega

/-! ## From a new state -/

omit [GafqNumber N] in
/-- Without tables that have no nodes nothing is counted that is not there. -/
theorem whitebytes_le (none : ∀ r ∈ a.heap.objects, a.heap.dummyBytes r = 0) : a.whitebytes ≤ a.totalbytes := by
  have exact' : a.whitebytes = ∑ r ∈ a.heap.allocated.filter fun r => a.heap.iswhite r = true, a.heap.bytes a.size r := by
    refine Finset.sum_congr rfl fun r member => ?_
    have inObjects := List.mem_toFinset.1 (Finset.mem_filter.1 (Finset.mem_filter.1 member).1).1
    rw [traversed_eq, none r inObjects, Nat.add_zero]
  have fewer := Finset.sum_le_sum_of_subset (f := a.heap.bytes a.size)
    (Finset.filter_subset (fun r => a.heap.iswhite r = true) a.heap.allocated)
  rw [exact', totalbytes_eq]
  omega

end Runs

/-- A new state: a string has a header of 24 bytes. -/
def fresh : Accounts Int where
  heap := newstate
  size
    | .string s => 24 + ((newstate : State Int).string s).length + 1
    | .thread _ => 1232
    | _ => 0
  buffsize := 0
  other := 456
  estimate := 0

theorem fresh_totalbytes : fresh.totalbytes ≤ 5000 := by decide +kernel

theorem fresh_isNew : fresh.IsNew where
  heap := by simp only [fresh]
  finalizers := by simp only [fresh]
  mode := by simp only [fresh]
  fits := by
    have := fresh_totalbytes
    omega

/-- The steps of a mark phase meet the condition if no table without nodes is white at its end. -/
theorem marking_run {start : Accounts Int} (isNew : start.IsNew) (n : Nat)
    (phase : ∀ i < n, (State.singlestep^[i] start.heap).gcstate = .pause ∨ (State.singlestep^[i] start.heap).gcstate = .propagate)
    (none : ∀ i < n, (State.singlestep^[i] start.heap).gray = [] →
      ∀ r ∈ (State.singlestep^[i] start.heap).objects, (State.singlestep^[i] start.heap).dummyBytes r = 0) :
    ∃ a, CoveredRun start a ∧ a.heap = State.singlestep^[n] start.heap ∧ a.mode = .program ∧
      a.totalbytes = start.totalbytes := by
  induction n with
  | zero => exact ⟨start, .refl, rfl, isNew.mode, rfl⟩
  | succ n inductionHypothesis =>
    obtain ⟨a, run, heap, mode, total⟩ := inductionHypothesis (fun i below => phase i (by omega)) fun i below => none i (by omega)
    have balanced := CoveredRun.balanced run isNew
    have here : a.heap.gcstate = .pause ∨ a.heap.gcstate = .propagate := heap ▸ phase n (Nat.lt_succ_self n)
    have total' := (balanced.marking_totalbytes here).trans total
    refine ⟨a.singlestep, run.tail ⟨.singlestep (.inl mode), total' ▸ isNew.fits, fun phase isGray => ?_, fun last => ?_,
      fun sweeping => ?_⟩, ?_, (singlestep_heap a).2.1.trans mode, total'⟩
    · exact balanced.estimated phase isGray (whitebytes_le (heap ▸ none n (Nat.lt_succ_self n) (heap ▸ isGray)))
    · exact absurd (.inr last.1) (not_sweeping (here.imp id .inl))
    · exact absurd sweeping (not_sweeping (here.imp id .inl))
    · rw [(singlestep_heap a).1, heap, Function.iterate_succ_apply']

/-- The sweep after it begins with an estimate that is not more than what is in use. -/
theorem fresh_sweep : ∃ a, CoveredRun fresh a ∧ a.heap.gcstate = .sweepstring ∧ a.mode = .program ∧
    a.estimate.toNat ≤ a.totalbytes ∧ a.totalbytes = fresh.totalbytes := by
  obtain ⟨a, run, heap, mode, total⟩ : ∃ a, CoveredRun fresh a ∧ a.heap = State.singlestep^[4] fresh.heap ∧ a.mode = .program ∧
      a.totalbytes = fresh.totalbytes := marking_run fresh_isNew 4 (by decide +kernel) (by decide +kernel)
  obtain ⟨phase, isGray, none, phase'⟩ :
      (State.singlestep^[4] fresh.heap).gcstate = .propagate ∧ (State.singlestep^[4] fresh.heap).gray = [] ∧
      (∀ r ∈ (State.singlestep^[4] fresh.heap).objects, (State.singlestep^[4] fresh.heap).dummyBytes r = 0) ∧
      (State.singlestep^[4] fresh.heap).singlestep.gcstate = .sweepstring := by
    decide +kernel
  rw [← heap] at phase isGray none phase'
  have balanced := CoveredRun.balanced run fresh_isNew
  have marked := balanced.estimated phase isGray (whitebytes_le none)
  have total' := (balanced.marking_totalbytes (.inr phase)).trans total
  have fits : a.singlestep.totalbytes < 2 ^ 64 := by
    rw [total']
    exact fresh_isNew.fits
  refine ⟨a.singlestep, run.tail ⟨.singlestep (.inl mode), fits, fun _ _ => marked, fun last => ?_,
    fun sweeping => ?_⟩, (singlestep_heap a).1 ▸ phase', (singlestep_heap a).2.1.trans mode,
    (balanced.atomic phase isGray marked).2, total'⟩
  · exact absurd (.inr last.1) (not_sweeping (.inr (.inl phase)))
  · exact absurd sweeping (not_sweeping (.inr (.inl phase)))

theorem noWrap_iff_covered_fresh : ∃ a : Accounts Int, Run fresh a ∧ a.Sweeping ∧ a.NoWrap := by
  obtain ⟨a, run, phase, -⟩ := fresh_sweep
  have covered : a.Covered := fun last => by cases phase.symm.trans last.1
  exact ⟨a, Relation.ReflTransGen.mono (fun _ _ step => ⟨step.1, step.2.1⟩) _ _ run, .inl phase,
    (noWrap_iff_covered fresh_isNew run (.inl phase)).2 covered⟩

/-- A long concatenation before the last step of the first sweep makes the estimate wrap. -/
theorem exists_wrap : ¬ ∀ start a : Accounts Int, start.IsNew → Run start a → a.Sweeping → a.NoWrap := by
  intro never
  obtain ⟨a, run, phase, mode, modest, total⟩ := fresh_sweep
  have unconditional : ∀ {b : Accounts Int}, CoveredRun fresh b → Run fresh b := fun run =>
    Relation.ReflTransGen.mono (fun _ _ step => ⟨step.1, step.2.1⟩) _ _ run
  obtain ⟨b, swept, balanced, mode', last, modest', less⟩ :=
    lastSweep_exists (CoveredRun.balanced run fresh_isNew) phase mode modest
  have small := fresh_totalbytes
  obtain ⟨c, opened, sweeping, wraps⟩ := openspace_wraps balanced mode' last modest' (by omega)
  exact wraps (never fresh c fresh_isNew (((unconditional run).trans swept).trans opened) sweeping)

end Accounts

end Gafq.GC
