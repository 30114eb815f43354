import Gafq.State
import Gafq.Verified.GC.Mutations
import Gafq.Verified.TableRefinement

/-! # Runs of the collector and the program

The invariant holds of a new state, every step keeps it, and so it holds after every run.  A step
of the collector frees nothing that can be reached.
-/

namespace Gafq.GC.State

variable {N : Type} {s s' : State N} {o p r : GCRef}

/-! ## A new state -/

theorem newGlobals_contents : Kept (N := N) (fun _ => False) (fun _ => False) (fun _ => False) newGlobals := by
  have contents := new_contents (N := N) { array := true, nodes := true } 0 2
  unfold newGlobals
  cases ran : Table.new (N := N) { array := true, nodes := true } 0 2 with
  | ok u h =>
    rw [ran] at contents
    exact contents
  | error e h =>
    rw [ran] at contents
    exact contents

theorem opened_colour (r : GCRef) : (opened : State N).colour r ≠ none ↔ r = .thread 0 ∨ r = .table 0 ∨ r = .table 1 := by
  unfold opened colour
  simp only [ne_eq, ite_eq_right_iff, reduceCtorEq, imp_false, Decidable.not_not]

theorem opened_white {c : Colour} (isColour : (opened : State N).colour r = some c) : c = .white false := by
  simp only [opened, colour] at isColour
  split at isColour
  · exact (Option.some.inj isColour).symm
  · cases isColour

theorem opened_live (one : r = .thread 0 ∨ r = .table 0 ∨ r = .table 1) : (opened : State N).Live r := by
  have isColour : (opened : State N).colour r = some (.white false) := if_pos one
  exact live_of_white isColour

theorem opened_not_open : ¬ (opened : State N).IsOpen r := by
  rintro ⟨u, th, level, rfl, kind⟩
  cases kind

theorem opened_consistent : Consistent nothing (opened : State N) := by
  have rootgc : (opened : State N).rootgc = [.table 1, .table 0, .thread 0] := rfl
  have strt : (opened : State N).strt.flatten = [] := by simp [opened]
  constructor
  · constructor
    · intro a present
      simp [opened_colour] at present
    · intro a present
      simp [opened_colour] at present
    · intro p _ present
      rw [rootgc]
      obtain rfl | rfl | rfl := (opened_colour p).1 present <;> simp
    · intro u v present
      simp [opened_colour] at present
    · intro u th level present
      simp [opened_colour] at present
    · exact fun _ => List.nodup_nil
    · intro th u _ member
      cases member
    · simp [opened, minStrTabSize]
  · constructor
    · rw [rootgc]
      simp [opened]
    · intro p member
      rw [opened_colour]
      rw [rootgc] at member
      refine ⟨?_, opened_not_open⟩
      simp only [List.mem_cons, List.not_mem_nil, or_false] at member
      obtain rfl | rfl | rfl := member <;> simp
    · intro a member
      rw [rootgc] at member
      simp at member
    · rw [strt]
      exact List.nodup_nil
    · intro a member
      rw [strt] at member
      cases member
  · intro p r live refers
    obtain rfl | rfl | rfl := (opened_colour p).1 live.allocated
    · obtain global | ⟨i, -, isRef⟩ := refers
      · cases global
        exact opened_live (.inr (.inl rfl))
      · cases isRef
    · exact (refers_of_kept (x := { h := newGlobals }) newGlobals_contents (by rintro _ ⟨⟩) refers).elim
    · exact (refers_of_kept (x := { h := newGlobals }) newGlobals_contents (by rintro _ ⟨⟩) refers).elim
  · intro r root
    cases root with
    | mainthread => exact opened_live (.inl rfl)
    | registry => exact opened_live (.inr (.inr rfl))
    | mt tag isMetatable => cases isMetatable
    | running => exact opened_live (.inl rfl)
  · intro u member
    cases member
  · intro r isFixed
    exact .inr (by simpa [opened] using isFixed)
  · intro p _
    exact opened_not_open
  · intro r c isColour
    exact .inl (opened_white isColour)
  · intro phase
    cases phase
  · intro phase
    cases phase
  · exact fun _ => rfl

theorem fix_consistent {a : Nat} (consistent : Consistent nothing s) : Consistent nothing (s.fix a) := by
  have owned := consistent.owned
  have linked := consistent.linked
  have refers : (s.fix a).Refers = s.Refers := by
    funext p r
    cases p <;> rfl
  have holds : (s.fix a).Holds = s.Holds := by
    funext p r
    simp only [Holds, refers]
    rfl
  constructor
  · exact ⟨owned.string, owned.udata, owned.traversable, owned.closedUpval, owned.openUpval, owned.openNodup,
      owned.openList, owned.buckets⟩
  · exact ⟨linked.nodup, linked.allocated, linked.notString, linked.strings, linked.interned⟩
  · rw [refers]
    exact consistent.closed
  · exact fun root => consistent.root (root.congr rfl rfl rfl rfl)
  · exact consistent.tmudata
  · intro r isFixed
    by_cases same : r = .string a
    · exact .inl (same ▸ trivial)
    · exact consistent.fixed (by simpa [fix, same] using isFixed)
  · exact consistent.notOpen
  · intro r c isColour
    exact (consistent.clean isColour).imp id fun isPending => isPending.mono rfl id id (fun _ _ => id) fun _ => id
  · intro phase
    have marking := consistent.marking phase
    refine ⟨marking.noDead, ?_, marking.notBlack, marking.gray, marking.listed⟩
    rw [holds]
    exact marking.black
  · exact consistent.marked
  · exact consistent.noneLeft

theorem newlstr_marked {str : TString} {fresh b : Nat} (unused : s.marked (.string b) = none) (other : b ≠ fresh) :
    (s.newlstr str fresh).2.marked (.string b) = none := by
  have kept : (s.newstring str fresh).marked (.string b) = none := by
    have apart : GCRef.string b ≠ .string fresh := fun same => other (GCRef.string.inj same)
    have marked : (s.marknew (.string fresh)).marked (.string b) = none := by
      simpa [marknew, other] using unused
    unfold newstring
    simp only
    split
    · rw [resizestrt_frame]
      exact marked
    · exact marked
  unfold newlstr
  simp only
  split
  · next a _ =>
    split
    · show (s.changewhite (.string a)).colour (.string b) = none
      rw [changewhite, colour_paint]
      split
      · next same =>
        rw [← same, State.colour, unused]
        rfl
      · exact unused
    · exact unused
  · exact kept

theorem newfixeds_consistent (names : List String) : ∀ {s : State N} {fresh : Nat}, Consistent nothing s →
    (∀ b, fresh ≤ b → s.marked (.string b) = none) → Consistent nothing (s.newfixeds fresh names) := by
  induction names with
  | nil => exact fun consistent _ => consistent
  | cons name names inductionHypothesis =>
    intro s fresh consistent unused
    have created := newlstr_created (chars name) consistent (unused fresh (le_refl _))
    exact inductionHypothesis (fix_consistent created.consistent) fun b above =>
      newlstr_marked (unused b (by omega)) (by omega)

theorem newstate_consistent : Consistent nothing (newstate : State N) :=
  newfixeds_consistent _ opened_consistent fun _ _ => rfl

/-! ## Objects that can be reached -/

theorem reachable_slot {i : Nat} (inUse : i < (s.thread s.running).top)
    (isRef : gcvalue ((s.thread s.running).stack i) = some r) : s.Reachable r :=
  ⟨_, .running, .single (.inr ⟨i, lt_exposed.2 (.inl inUse), isRef⟩)⟩

theorem reachable_globals (isRef : gcvalue (s.thread s.running).gt = some r) : s.Reachable r :=
  ⟨_, .running, .single (.inl isRef)⟩

theorem Reachable.tail (reachable : s.Reachable o) (refers : s.Refers o r) : s.Reachable r :=
  reachable.imp fun _ path => ⟨path.1, path.2.tail refers⟩

theorem reachable_main {th : Nat} (main : s.mainthread = th) : s.Reachable (.thread th) :=
  main ▸ ⟨_, .mainthread, .refl⟩

/-! ## Runs -/

section Runs

variable [GafqNumber N]

theorem Step.consistent (step : Step s s') (consistent : Consistent nothing s) : Consistent nothing s' := by
  cases step with
  | singlestep => exact (singlestep_consistent consistent).1
  | mutates mutates => exact mutates.consistent consistent

theorem Run.consistent (run : Run s s') (consistent : Consistent nothing s) : Consistent nothing s' := by
  induction run with
  | refl => exact consistent
  | tail _ step inductionHypothesis => exact step.consistent inductionHypothesis

theorem run_iterate (n : Nat) : Run s (singlestep^[n] s) := by
  induction n with
  | zero => exact .refl
  | succ n inductionHypothesis =>
    rw [Function.iterate_succ_apply']
    exact inductionHypothesis.tail .singlestep

/-- In every state that a run reaches, what can be reached is allocated, a step of the collector does
not free it, and while the heap is being marked no black object refers to a white one. -/
theorem run_keeps_reachable (run : Run newstate s) :
    (∀ r, s.StronglyReachable r → s.colour r ≠ none ∧ s.singlestep.colour r ≠ none) ∧
    (s.gcstate = .propagate → ∀ o r, s.colour o = some .black → s.Refers o r → s.iswhite r = false) := by
  have consistent := run.consistent newstate_consistent
  refine ⟨fun r strong => ?_, fun phase o r black refers => ?_⟩
  · have live := consistent.live strong.reachable
    exact ⟨live.allocated, (singlestep_consistent consistent).2 live⟩
  · exact (((consistent.marking phase).black black refers.holds).resolve_right id).not_white

end Runs

def twoTables : State Int :=
  (newstate.createtable { array := true, nodes := true } 0 0 2).createtable { array := true, nodes := true } 0 0 3

/-- The second of two tables is no longer on the stack, and the collector has swept the strings. -/
def stringsSwept : State Int := singlestep^[70] (twoTables.settop 0 2)

set_option maxRecDepth 4000 in
theorem stringsSwept_run : Run newstate stringsSwept := by
  obtain ⟨freshFirst, freshSecond, isMain, exposed⟩ :
      (newstate : State Int).marked (.table 2) = none ∧
      (newstate.createtable { array := true, nodes := true } 0 0 2 : State Int).marked (.table 3) = none ∧
      twoTables.mainthread = 0 ∧ 2 ≤ (twoTables.thread 0).exposed := by
    decide +kernel
  have created : Run newstate twoTables :=
    .tail (.single (.mutates (.createtable _ 0 0 freshFirst))) (.mutates (.createtable _ 0 0 freshSecond))
  exact (created.tail (.mutates (.settop (reachable_main isMain) exposed))).trans (run_iterate 70)

/-- The next step frees the second table and keeps the first. -/
theorem run_keeps_reachable_stringsSwept :
    stringsSwept.gcstate = .sweep ∧ stringsSwept.singlestep.colour (.table 3) = none ∧
      stringsSwept.colour (.table 2) ≠ none ∧ stringsSwept.singlestep.colour (.table 2) ≠ none := by
  obtain ⟨sweeping, freed, running, inUse, onStack⟩ :
      stringsSwept.gcstate = .sweep ∧ stringsSwept.singlestep.colour (.table 3) = none ∧ stringsSwept.running = 0 ∧
      1 < (stringsSwept.thread 0).top ∧ gcvalue ((stringsSwept.thread 0).stack 1) = some (.table 2) := by
    decide +kernel
  have strong : stringsSwept.StronglyReachable (.table 2) :=
    ⟨.thread 0, running ▸ .running, .single (.inr ⟨1, inUse, onStack⟩)⟩
  exact ⟨sweeping, freed, (run_keeps_reachable stringsSwept_run).1 _ strong⟩

end Gafq.GC.State
