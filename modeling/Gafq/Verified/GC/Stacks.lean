import Gafq.Verified.GC.Runs
import Gafq.Verified.GC.Updates

/-! # The collector and the stacks

The collector clears slots above the top of a stack, and a finalizer is called with slots that are
pushed.  The slots below the top stay as they are.
-/

namespace Gafq.GC.State

variable {N : Type} {s s' : State N} {o p r : GCRef}

structure LeavesStacks (s s' : State N) : Prop where
  running : s'.running = s.running
  top : ∀ th, (s.thread th).top ≤ (s'.thread th).top
  slot : ∀ {th i}, i < (s.thread th).top → (s'.thread th).stack i = (s.thread th).stack i

namespace LeavesStacks

theorem of_eq (running : s'.running = s.running) (thread : s'.thread = s.thread) : LeavesStacks s s' :=
  ⟨running, fun th => by rw [thread], fun _ => by rw [thread]⟩

theorem then_eq {s₁ s₂ : State N} (first : LeavesStacks s s₁) (running : s₂.running = s₁.running)
    (thread : s₂.thread = s₁.thread) : LeavesStacks s s₂ :=
  ⟨running.trans first.running, fun th => thread ▸ first.top th, fun below => thread ▸ first.slot below⟩

theorem after_eq {s₁ s₂ : State N} (next : LeavesStacks s₁ s₂) (running : s₁.running = s.running)
    (thread : s₁.thread = s.thread) : LeavesStacks s s₂ :=
  ⟨next.running.trans running, fun th => thread ▸ next.top th, fun {_ _} below => thread ▸ next.slot (thread ▸ below)⟩

theorem refl (s : State N) : LeavesStacks s s := of_eq rfl rfl

theorem trans {s₁ s₂ : State N} (first : LeavesStacks s s₁) (second : LeavesStacks s₁ s₂) : LeavesStacks s s₂ where
  running := second.running.trans first.running
  top th := (first.top th).trans (second.top th)
  slot {th _} below := (second.slot (Nat.lt_of_lt_of_le below (first.top th))).trans (first.slot below)

/-- The list of open upvalues is not part of the stack. -/
theorem of_openupval (running : s'.running = s.running)
    (thread : ∀ th, ∃ openupval, s'.thread th = { s.thread th with openupval }) : LeavesStacks s s' := by
  refine ⟨running, fun th => ?_, fun {th i} _ => ?_⟩ <;> obtain ⟨openupval, same⟩ := thread th <;> rw [same]

end LeavesStacks

open LeavesStacks

/-! ## The mark phase -/

theorem of_updates {P : GCRef → Prop} (updates : Updates P s s') : LeavesStacks s s' := by
  apply frame_of_steps refl trans _ updates
  intro s s' update
  cases update with
  | repaint repaint => cases repaint <;> exact of_eq rfl rfl
  | setTable => exact of_eq rfl rfl
  | clearStack a kept =>
    refine ⟨rfl, fun th => ?_, fun {th i} below => ?_⟩
    · by_cases same : th = a
      · subst same
        simp [setThread]
      · simp [setThread, same]
    · by_cases same : th = a
      · subst same
        simpa [setThread] using kept i below
      · simp [setThread, same]

theorem markroot_stacks (s : State N) : LeavesStacks s s.markroot := by
  obtain ⟨s₁, repaints, result⟩ := markroot_repaints (.any { s with gray := [], grayagain := [], weak := [] })
  rw [result]
  have emptied : LeavesStacks s { s with gray := [], grayagain := [], weak := [] } := of_eq rfl rfl
  exact (emptied.trans (of_updates repaints.updates)).then_eq rfl rfl

theorem separateLoop_stacks (all : Bool) (list : List GCRef) : ∀ s : State N, LeavesStacks s (s.separateLoop all list).2 := by
  induction list with
  | nil => exact refl
  | cons o rest inductionHypothesis =>
    intro s
    cases o with
    | udata u =>
      unfold separateLoop
      split
      · exact inductionHypothesis s
      · split
        · have marked : LeavesStacks s (s.markfinalized u) := of_eq rfl rfl
          exact marked.trans (inductionHypothesis _)
        · have separated : LeavesStacks s { s.markfinalized u with tmudata := (s.markfinalized u).tmudata ++ [u] } :=
            of_eq rfl rfl
          exact separated.trans (inductionHypothesis _)
    | string | proto | closure | table | upval | thread => exact inductionHypothesis s

theorem separateudata_stacks (s : State N) (all : Bool) : LeavesStacks s (s.separateudata all) :=
  (separateLoop_stacks all _ s).trans (of_eq rfl rfl)

theorem preserve_stacks (s : State N) : LeavesStacks s s.preserve :=
  (separateudata_stacks s false).trans (of_updates
    ((marktmu_repaints (.any _) fun _ _ => trivial).updates.trans (propagateLoop_updates _ (.any _))))

theorem atomic_stacks (s : State N) : LeavesStacks s s.atomic := by
  have upvals : Updates (fun _ => True) s s.remarkupvals.propagateall :=
    (remarkupvals_repaints (.any s)).updates.trans (propagateLoop_updates _ (.any _))
  have preserved :=
    (of_updates ((upvals.trans (remarkweak_updates (.any _))).trans (remarkagain_updates (.any _)))).trans (preserve_stacks _)
  have finished : LeavesStacks s s.finishMarking := by
    unfold finishMarking
    simp only
    generalize s.remarkupvals.propagateall.remarkweak.remarkagain.preserve = s₁ at preserved ⊢
    exact preserved.trans (of_updates (cleartables_updates s₁.weak (.any s₁) fun _ _ => trivial))
  rw [atomic_eq]
  generalize s.finishMarking = s₁ at finished ⊢
  exact finished.then_eq rfl rfl

/-! ## The sweep -/

theorem sweepupvals_stacks (us : List Nat) : ∀ s : State N, LeavesStacks s (s.sweepupvals us).2 := by
  induction us with
  | nil => exact refl
  | cons u us inductionHypothesis =>
    intro s
    unfold sweepupvals
    split
    · exact (inductionHypothesis (s.freeupval u)).after_eq rfl rfl
    · exact (inductionHypothesis (s.makewhite (.upval u))).after_eq rfl rfl

theorem sweepstrings_stacks (as : List Nat) : ∀ s : State N, LeavesStacks s (s.sweepstrings as).2 := by
  induction as with
  | nil => exact refl
  | cons a as inductionHypothesis =>
    intro s
    unfold sweepstrings
    split
    · exact (inductionHypothesis (s.free (.string a))).after_eq rfl rfl
    · exact (inductionHypothesis (s.makewhite (.string a))).after_eq rfl rfl

theorem setOpenupval_stacks (s : State N) (th : Nat) (openupval : List Nat) :
    LeavesStacks s (s.setThread th { s.thread th with openupval }) := by
  refine of_openupval rfl fun a => ?_
  by_cases same : a = th
  · subst same
    exact ⟨openupval, Function.update_self ..⟩
  · exact ⟨(s.thread a).openupval, Function.update_of_ne same ..⟩

theorem sweepopenupval_stacks (s : State N) (o : GCRef) : LeavesStacks s (s.sweepopenupval o) := by
  cases o with
  | thread th => exact (sweepupvals_stacks _ s).trans (setOpenupval_stacks _ th _)
  | string | udata | proto | closure | table | upval => exact refl s

theorem linkroot_stacks (s : State N) (o : GCRef) : LeavesStacks s (s.linkroot o) := by
  unfold linkroot
  split <;> exact of_eq rfl rfl

theorem barrier_stacks (s : State N) (o : GCRef) (v : TValue N) : LeavesStacks s (s.barrier o v) := by
  unfold State.barrier
  split
  · simp only [State.objbarrier, barrierf]
    split
    · split
      · exact of_updates (reallymarkobject_repaints (.any s) trivial).updates
      · exact of_eq rfl rfl
    · exact refl s
  · exact refl s

theorem linkupval_stacks (s : State N) (u : Nat) : LeavesStacks s (s.linkupval u) := by
  have linked := linkroot_stacks s (.upval u)
  unfold linkupval
  simp only
  split
  · split
    · exact linked.trans ((barrier_stacks _ _ _).after_eq rfl rfl)
    · exact linked.then_eq rfl rfl
  · exact linked

theorem closeupval_stacks (s : State N) (u : Nat) : LeavesStacks s (s.closeupval u) := by
  unfold closeupval
  split
  · exact of_eq rfl rfl
  · exact (linkupval_stacks _ u).after_eq rfl rfl

theorem closeLoop_stacks (th level : Nat) (us : List Nat) : ∀ s : State N, LeavesStacks s (s.closeLoop th level us) := by
  induction us with
  | nil => exact refl
  | cons u us inductionHypothesis =>
    intro s
    unfold closeLoop
    split
    · exact ((setOpenupval_stacks s th us).trans (closeupval_stacks _ u)).trans (inductionHypothesis _)
    · exact refl s

theorem freeobj_stacks (s : State N) (o : GCRef) : LeavesStacks s (s.freeobj o) := by
  cases o with
  | thread th => exact (closeLoop_stacks th 0 _ s).trans (of_eq rfl rfl)
  | string | udata | proto | closure | table | upval => exact of_eq rfl rfl

theorem sweepone_stacks (s : State N) : LeavesStacks s s.sweepone := by
  unfold sweepone
  split
  · exact refl s
  · next o rest _ =>
    have swept := sweepopenupval_stacks s o
    simp only
    split
    · have advanced : LeavesStacks s { s.sweepopenupval o with unswept := rest } := swept.then_eq rfl rfl
      exact advanced.trans (freeobj_stacks _ o)
    · exact swept.then_eq rfl rfl

theorem sweeplist_stacks (count : Nat) : ∀ s : State N, LeavesStacks s (s.sweeplist count) := by
  induction count with
  | zero => exact refl
  | succ count inductionHypothesis => exact fun s => (sweepone_stacks s).trans (inductionHypothesis _)

theorem push_stacks (s : State N) (th : Nat) (v : TValue N) : LeavesStacks s (s.push th v) := by
  refine ⟨rfl, fun a => ?_, fun {a i} below => ?_⟩
  · by_cases same : a = th
    · subst same
      simp [push, setThread]
    · simp [push, setThread, same]
  · by_cases same : a = th
    · subst same
      simp [push, setThread, Nat.ne_of_lt below]
    · simp [push, setThread, same]

theorem gctm_stacks (s : State N) : LeavesStacks s s.gctm := by
  unfold gctm
  split
  · exact refl s
  · next u rest _ =>
    have linked : LeavesStacks s ((({ s with tmudata := rest } : State N).linkudata u).makewhite (.udata u)) := by
      rw [linkudata_frame]
      exact of_eq rfl rfl
    simp only
    split
    · exact linked
    · exact (linked.trans (push_stacks _ _ _)).trans (push_stacks _ _ _)

/-- One step of the collector. -/
theorem singlestep_stacks (s : State N) : LeavesStacks s s.singlestep := by
  unfold singlestep
  split
  · exact markroot_stacks s
  · split
    · exact atomic_stacks s
    · exact of_updates (propagatemark_updates (.any s))
  · have swept : LeavesStacks s s.sweepbucket := (sweepstrings_stacks _ s).trans (of_eq rfl rfl)
    simp only
    split
    · exact swept.then_eq rfl rfl
    · exact swept
  · have swept := sweeplist_stacks sweepMax s
    simp only
    split
    · refine swept.trans ?_
      unfold checkSizes
      split
      · rw [resizestrt_frame]
        exact of_eq rfl rfl
      · exact of_eq rfl rfl
    · exact swept
  · split
    · exact of_eq rfl rfl
    · exact gctm_stacks s

end Gafq.GC.State
