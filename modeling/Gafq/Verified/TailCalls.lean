import Gafq.Verified.CallRefinement

/-! # Tail calls

A tail call gives the frame of the caller away.  What the functions find in their registers, and what is
returned in the end, is what they would find if the caller had made a call with an open number of results and
then returned all of them.
-/

namespace Gafq

open Base

variable {V : Type} {env : CallEnv V} {active caller : Record V} {callers waiting : List (Record V)} {n m : Int}
  {s s' : Records V} {l : CallLabel V}

/-- `OP_TAILCALL` -/
def CallLabel.isTailcall : CallLabel V → Bool
  | .tailcall .. => true
  | .tailcallC .. => true
  | _ => false

/-- The step is the same whatever callers there are. -/
def CallLabel.stays : CallLabel V → Bool
  | .set .. => true
  | .above => true
  | .vararg .. => true
  | .call .. => true
  | _ => false

/-- The place when callers that have given their frames away are still there. -/
inductive Place.Unrolled : Place → Place → Prop
  | active (r : Nat) : Unrolled (.register 0 r) (.register 0 r)
  | caller {depth depth' : Nat} (r : Nat) (deeper : depth ≤ depth') : Unrolled (.register (depth + 1) r) (.register (depth' + 1) r)
  | outside (i : Nat) : Unrolled (.outside i) (.outside i)

/-- The same values are assigned. -/
def WritesUnrolled : List (Place × V) → List (Place × V) → Prop :=
  List.Forall₂ fun write write' => write.1.Unrolled write'.1 ∧ write'.2 = write.2

/-- The same with calls for tail calls: the callers that are still there return, one after the other, what
they have received. -/
inductive CallLabel.Unrolled : CallLabel V → List (CallLabel V) → Prop
  | assign {place place' : Place} (v : V) (unrolled : place.Unrolled place') : Unrolled (.assign place v) [.assign place' v]
  | callC (pc a b c : Nat) (results : List V) {writes writes' : List (Place × V)} (unrolled : WritesUnrolled writes writes') :
    Unrolled (.callC pc a b c results writes) [.callC pc a b c results writes']
  | tailcall (pc a b : Nat) (p : Proto) (hole : Bool) : Unrolled (.tailcall pc a b p hole) [.call pc a b 0 p hole]
  | tailcallC (pc a b : Nat) (results : List V) {writes writes' : List (Place × V)} (unrolled : WritesUnrolled writes writes') :
    Unrolled (.tailcallC pc a b results writes) [.callC pc a b 0 results writes']
  | ret (pc a b : Nat) {passedOn : List (CallLabel V)} (open_ : ∀ l ∈ passedOn, ∃ pc a, l = .ret pc a 0) :
    Unrolled (.ret pc a b) (.ret pc a b :: passedOn)
  | same {l : CallLabel V} (stays : l.stays) : Unrolled l [l]

theorem CallLabel.Unrolled.isTailcall {ls : List (CallLabel V)} (unrolled : l.Unrolled ls) : ∀ l' ∈ ls, l'.isTailcall = false := by
  intro l' member
  cases unrolled with
  | ret pc a b open_ =>
    cases member with
    | head => rfl
    | tail _ member =>
      obtain ⟨pc, a, rfl⟩ := open_ l' member
      rfl
  | same stays =>
    rw [List.mem_singleton.1 member]
    cases l with
    | set | above | vararg | call => rfl
    | assign | callC | tailcall | tailcallC | ret => cases stays
  | assign | callC | tailcall | tailcallC =>
    rw [List.mem_singleton.1 member]
    rfl

/-- The callers of a function that is to return `n` results, and those of the same function when no caller
has given its frame away, where it is to return `m` results. -/
inductive Waiting : Int → List (Record V) → Int → List (Record V) → Prop
  | entry {n : Int} : Waiting n [] n []
  | caller {n m : Int} {r : Record V} {callers waiting : List (Record V)} (rest : Waiting r.nresults callers m waiting) :
    Waiting n (r :: callers) n ({ r with nresults := m } :: waiting)
  /-- the caller that has made a tail call passes on all that it receives -/
  | passes {n : Int} {w : Record V} {callers waiting : List (Record V)} (rest : Waiting n callers w.nresults waiting) :
    Waiting n callers (-1) (w :: waiting)

/-- The functions that run are the same, with the same values in their registers. -/
structure RecordStack.Unrolls (s s' : RecordStack V) : Prop where
  below : s'.below = s.below
  active : ∃ m, s'.active = { s.active with nresults := m } ∧ Waiting s.active.nresults s.callers m s'.callers

def Records.Unrolls : Records V → Records V → Prop
  | .running s, .running s' => s.Unrolls s'
  | .finished below results, .finished below' results' => below' = below ∧ results' = results
  | _, _ => False

@[simp] theorem Record.assign_nresults (r : Record V) (i : Nat) (v : V) : (r.assign i v).nresults = r.nresults := by
  unfold Record.assign
  split <;> rfl

theorem Record.assign_withNresults (r : Record V) (i : Nat) (v : V) :
    ({ r with nresults := n } : Record V).assign i v = { r.assign i v with nresults := n } := by
  unfold Record.assign
  split <;> rfl

@[simp] theorem Record.set_nresults (r : Record V) (i : Nat) (v : V) : (r.set i v).nresults = r.nresults := by
  unfold Record.set
  split <;> rfl

theorem Record.set_withNresults (r : Record V) (i : Nat) (v : V) :
    ({ r with nresults := n } : Record V).set i v = { r.set i v with nresults := n } := by
  unfold Record.set
  split <;> rfl

/-- A caller that is assigned to is there in both runs, in the one perhaps deeper. -/
theorem Waiting.assign (rest : Waiting n callers m waiting) (depth r : Nat) (v : V) :
    ∃ depth', depth ≤ depth' ∧ Waiting n (callers.modify depth (·.assign r v)) m (waiting.modify depth' (·.assign r v)) := by
  induction rest generalizing depth with
  | entry => exact ⟨depth, le_rfl, by simpa using .entry⟩
  | @caller n m record callers waiting rest inductionHypothesis =>
    cases depth with
    | zero =>
      refine ⟨0, le_rfl, ?_⟩
      have written : ({ record with nresults := m } : Record V).assign r v = { record.assign r v with nresults := m } :=
        record.assign_withNresults r v
      rw [List.modify_zero_cons, List.modify_zero_cons, written]
      exact .caller ((record.assign_nresults r v).symm ▸ rest)
    | succ depth =>
      obtain ⟨depth', deeper, rest⟩ := inductionHypothesis depth
      exact ⟨depth' + 1, Nat.succ_le_succ deeper, .caller rest⟩
  | passes _ inductionHypothesis =>
    obtain ⟨depth', deeper, rest⟩ := inductionHypothesis depth
    exact ⟨depth' + 1, by omega, .passes rest⟩

namespace RecordStack.Unrolls

variable {stack stack' : RecordStack V}

theorem assign (unrolls : stack.Unrolls stack') (place : Place) (v : V) :
    ∃ place', place.Unrolled place' ∧ (stack.assign v place).Unrolls (stack'.assign v place') := by
  obtain ⟨below, m, active, rest⟩ := unrolls
  cases place with
  | register depth r =>
    cases depth with
    | zero =>
      refine ⟨_, .active r, below, m, ?_, (stack.active.set_nresults r v).symm ▸ rest⟩
      simp only [RecordStack.assign, active, Record.set_withNresults]
    | succ depth =>
      obtain ⟨depth', deeper, rest⟩ := rest.assign depth r v
      exact ⟨_, .caller r deeper, below, m, active, rest⟩
  | outside i => exact ⟨_, .outside i, by simp only [RecordStack.assign, below], m, active, rest⟩

theorem assignAll (unrolls : stack.Unrolls stack') (writes : List (Place × V)) :
    ∃ writes', WritesUnrolled writes writes' ∧ (stack.assignAll writes).Unrolls (stack'.assignAll writes') := by
  induction writes generalizing stack stack' with
  | nil => exact ⟨[], .nil, unrolls⟩
  | cons write writes inductionHypothesis =>
    obtain ⟨place', isUnrolled, unrolls⟩ := unrolls.assign write.1 write.2
    obtain ⟨writes', areUnrolled, unrolls⟩ := inductionHypothesis unrolls
    exact ⟨(place', write.2) :: writes', .cons ⟨isUnrolled, rfl⟩ areUnrolled, unrolls⟩

/-- The active function receives the results of a C function. -/
theorem receive (unrolls : stack.Unrolls stack') (a : Nat) (wanted : Int) (results : List V) :
    (stack.receive env a wanted results).Unrolls (stack'.receive env a wanted results) := by
  obtain ⟨below, m, active, rest⟩ := unrolls
  refine ⟨below, m, ?_, rest⟩
  rw [RecordStack.receive, active]
  rfl

end RecordStack.Unrolls

/-- The results that a function received with an open number of them are those it passes on. -/
theorem Record.results_receive (r : Record V) (a : Nat) (vs : List (Option V)) : (r.receive env a (-1) vs).results a 0 = vs := by
  have all : Thread.adjust (some env.nil) (-1) vs = vs := if_pos (by decide)
  have count : (r.receive env a (-1) vs).limit - a = vs.length := by
    simp only [Record.receive, all]
    simp
  unfold Record.results Record.values
  rw [if_pos rfl, count]
  refine List.ext_getElem (by simp) fun i inside inside' => ?_
  simp only [List.getElem_map, List.getElem_range, Record.receive, all]
  have negative : (-1 : Int) < 0 := by decide
  rw [if_pos negative, if_pos (by omega), Record.put, if_neg (by omega), Nat.add_sub_cancel_left, List.getElem?_eq_getElem inside']
  rfl

/-- A return depends on the results and on how many of them are wanted. -/
theorem Records.Step.ret_congr {below : Nat → V} {r r' : Record V} {pc a b pc' a' b' : Nat}
    (step : Records.Step env (.running ⟨below, r, callers⟩) (.ret pc a b) s) (wanted : r.nresults = r'.nresults)
    (results : r.results a b = r'.results a' b') : Records.Step env (.running ⟨below, r', callers⟩) (.ret pc' a' b') s := by
  cases step with
  | ret =>
    rw [wanted, results]
    exact .ret
  | last =>
    rw [wanted, results]
    exact .last

/-- Results on their way to a function that is there in both runs. -/
theorem Waiting.deliver (rest : Waiting n callers m waiting) (below : Nat → V) (r : Record V) (wanted : r.nresults = n) (pc a b : Nat) :
    ∃ passedOn s s', (∀ l ∈ passedOn, ∃ pc a, l = CallLabel.ret pc a 0) ∧
      Records.Step env (.running ⟨below, r, callers⟩) (.ret pc a b) s ∧
      LabelledRun (Records.Step env) (.running ⟨below, { r with nresults := m }, waiting⟩) (.ret pc a b :: passedOn) s' ∧ s.Unrolls s' := by
  induction rest generalizing r pc a b with
  | entry =>
    subst wanted
    exact ⟨[], _, _, by simp, .last, .single .last, rfl, rfl⟩
  | caller rest =>
    subst wanted
    exact ⟨[], _, _, by simp, .ret, .single .ret, ⟨rfl, _, rfl, rest⟩⟩
  | @passes n w callers waiting rest inductionHypothesis =>
    -- the waiting caller has received the results and returns them all
    let received := w.receive env w.register (-1) (r.results a b)
    obtain ⟨passedOn, s, s', open_, step, run, unrolls⟩ := inductionHypothesis { received with nresults := n } rfl 0 w.register 0
    refine ⟨.ret 0 w.register 0 :: passedOn, s, s', ?_, ?_, .head .ret run, unrolls⟩
    · rintro l (_ | ⟨_, member⟩)
      · exact ⟨0, w.register, rfl⟩
      · exact open_ l member
    · exact step.ret_congr wanted.symm (w.results_receive w.register (r.results a b))

/-- A step is matched by what its label is unrolled to. -/
theorem Records.step_unrolls {t : Records V} (step : Records.Step env s l s') (unrolls : s.Unrolls t) :
    ∃ ls t', l.Unrolled ls ∧ LabelledRun (Records.Step env) t ls t' ∧ s'.Unrolls t' := by
  cases s with
  | finished below results => cases step
  | running stack =>
  cases t with
  | finished below results => exact unrolls.elim
  | running stack' =>
  have related : stack.Unrolls stack' := unrolls
  obtain ⟨floor, active, callers⟩ := stack
  obtain ⟨floor', active', waiting⟩ := stack'
  obtain ⟨sameBelow, m, sameActive, rest⟩ := unrolls
  simp only at sameBelow sameActive rest
  subst sameBelow sameActive
  cases step with
  | @set _ r v =>
    exact ⟨_, _, .same rfl, .single .set, rfl, m, active.set_withNresults r v, (active.set_nresults r v).symm ▸ rest⟩
  | @assign _ place v =>
    obtain ⟨place', isUnrolled, unrolls⟩ := related.assign place v
    exact ⟨_, _, .assign v isUnrolled, .single .assign, unrolls⟩
  | above => exact ⟨_, _, .same rfl, .single .above, related⟩
  | @vararg _ a b =>
    have wanted : (active.expand env a b).nresults = active.nresults := by
      unfold Record.expand
      split <;> rfl
    refine ⟨_, _, .same rfl, .single .vararg, rfl, m, ?_, wanted.symm ▸ rest⟩
    simp only
    unfold Record.expand
    split <;> rfl
  | call calls => exact ⟨_, _, .same rfl, .single (.call calls), rfl, _, rfl, .caller rest⟩
  | @callC _ pc a b c results writes =>
    obtain ⟨writes', areUnrolled, unrolls⟩ := related.assignAll writes
    exact ⟨_, _, .callC pc a b c results areUnrolled, .single .callC, unrolls.receive ..⟩
  | tailcall calls => exact ⟨_, _, .tailcall .., .single (.call calls), rfl, -1, rfl, .passes rest⟩
  | @tailcallC _ pc a b results writes =>
    obtain ⟨writes', areUnrolled, unrolls⟩ := related.assignAll writes
    exact ⟨_, _, .tailcallC pc a b results areUnrolled, .single .callC, unrolls.receive ..⟩
  | @ret _ _ caller callers pc a b =>
    obtain ⟨passedOn, s, s', open_, step, run, unrolls⟩ :=
      @Waiting.deliver V env (caller :: callers) waiting _ m rest floor' active rfl pc a b
    cases step with
    | ret => exact ⟨_, s', .ret pc a b open_, run, unrolls⟩
  | @last _ _ pc a b =>
    obtain ⟨passedOn, s, s', open_, step, run, unrolls⟩ := @Waiting.deliver V env [] waiting _ m rest floor' active rfl pc a b
    cases step with
    | last => exact ⟨_, s', .ret pc a b open_, run, unrolls⟩

/-- In every run of `gafqV_execute`, with tail calls anywhere and as deep as they go, each function that runs
has in its registers what it has when every `OP_TAILCALL` is an ordinary call with an open number of results,
all of which its caller then returns; in the end the same values are returned. -/
theorem tailcalls_as_calls {th th' : Thread V} {func : Nat} {p : Proto} {hole : Bool} {nresults : Int} {labels : List (CallLabel V)}
    {s : Execution V} (quiet : env.Quiet) (takes : func < th.top) (wanted : -1 ≤ nresults) (calls : env.Calls (th.slots func) p hole)
    (called : Thread.precall env th func nresults = .ok (.gafq, th')) (run : LabelledRun (Execution.Step env) (.running th' 1) labels s) :
    ∃ unrolled t t', List.Forall₂ CallLabel.Unrolled labels unrolled ∧ (∀ l ∈ unrolled.flatten, l.isTailcall = false) ∧
      LabelledRun (Records.Step env) (.running (.called env th func p hole nresults)) unrolled.flatten t' ∧
      s.Holds env func (th.ci.modifyHead fun ci => { ci with savedpc := th.savedpc }) t ∧ t.Unrolls t' := by
  obtain ⟨t, records, holds⟩ := run_refines quiet run (precall_holds quiet takes wanted calls called)
  have atStart : (Records.running (.called env th func p hole nresults)).Unrolls (.running (.called env th func p hole nresults)) :=
    ⟨rfl, nresults, rfl, .entry⟩
  obtain ⟨unrolled, t', labelled, calls, unrolls⟩ :=
    records.stutter (fun _ _ _ _ step unrolls => Records.step_unrolls step unrolls) atStart
  refine ⟨unrolled, t, t', labelled, fun l member => ?_, calls, holds, unrolls⟩
  obtain ⟨ls, isPart, inPart⟩ := List.mem_flatten.1 member
  obtain ⟨i, inside, rfl⟩ := List.mem_iff_getElem.1 isPart
  have part := labelled.get (by rw [labelled.length_eq]; exact inside) inside
  exact CallLabel.Unrolled.isTailcall part l inPart

/-- `twoParams` calls itself; the function called gives its frame to another call, which assigns to a register of
the first one, and passes on the one value returned. -/
theorem tailcalls_as_calls_twoParams :
    ∃ th', Thread.precall Thread.plainEnv (Thread.callingThread Thread.twoParams 1) 1 0 = .ok (.gafq, th') ∧
      ∃ s, LabelledRun (Execution.Step Thread.plainEnv) (.running th' 1)
          [.set 1 (some Thread.twoParams), .call 1 1 1 2 Thread.twoParams false, .set 0 (some Thread.twoParams),
            .tailcall 1 0 1 Thread.twoParams false, .assign (.register 1 0) (some Thread.twoParams), .ret 2 0 2, .ret 2 0 2] s ∧
        ∃ unrolled t t', List.Forall₂ CallLabel.Unrolled
            [.set 1 (some Thread.twoParams), .call 1 1 1 2 Thread.twoParams false, .set 0 (some Thread.twoParams),
              .tailcall 1 0 1 Thread.twoParams false, .assign (.register 1 0) (some Thread.twoParams), .ret 2 0 2, .ret 2 0 2] unrolled ∧
          (∀ l ∈ unrolled.flatten, l.isTailcall = false) ∧
          LabelledRun (Records.Step Thread.plainEnv)
            (.running (.called Thread.plainEnv (Thread.callingThread Thread.twoParams 1) 1 Thread.twoParams false 0)) unrolled.flatten t' ∧
          s.Holds Thread.plainEnv 1 [{ base := 1, top := 1 + minStack }] t ∧ t.Unrolls t' := by
  refine ⟨_, rfl, Exists.imp (fun s run => ⟨run, @tailcalls_as_calls _ Thread.plainEnv (Thread.callingThread Thread.twoParams 1) _
    1 Thread.twoParams false 0 _ s plainEnv_quiet (by decide) (by decide) rfl rfl run⟩) ?_⟩
  exact ⟨_, .head .set (.head (.call (fun isOpen => absurd isOpen Nat.one_ne_zero) rfl rfl) (.head .set
    (.head (.tailcall (fun isOpen => absurd isOpen Nat.one_ne_zero) rfl rfl) (.head (.assign rfl) (.head (.ret rfl) (.single (.last rfl)))))))⟩

end Gafq
