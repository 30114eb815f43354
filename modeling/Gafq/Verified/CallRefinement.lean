import Gafq.Verified.CallFrames

/-! # The stack of calls refines activation records

Whatever functions call each other in a run of the interpreter, each of them finds its registers and its
extra arguments as if it had them for itself.
-/

namespace Gafq

open Base

variable {V : Type} {env : CallEnv V} {entry : Nat} {floor : Nat → V} {outer : List CallInfo} {th th' : Thread V} {active : Record V}
  {callers : List (Record V)} {pc a b c : Nat}

namespace Represents

/-- The registers of the active function change, with the top. -/
theorem rewrite {regs : Nat → Option V} {limit : Nat} (rep : Represents env entry floor outer th active callers)
    (ci : ∃ pc, th'.ci = th.ci.modifyHead fun ci => { ci with savedpc := pc }) (base : th'.base = th.base)
    (top : th'.top = th.base + limit) (below : ∀ i, i < th.base → th'.slots i = th.slots i)
    (known : ∀ (i : Nat) (v : V), regs i = some v → i < limit ∧ th'.slots (th.base + i) = v) :
    Represents env entry floor outer th' { active with regs, limit } callers := by
  obtain ⟨⟨call, cis, frames, atBase, -, frame, chain⟩, atFloor⟩ := rep
  obtain ⟨pc, ci⟩ := ci
  have room := frame.room
  have entry_le := chain.entry_le
  rw [atBase] at below known top
  refine ⟨⟨{ call with savedpc := pc }, cis, by rw [ci, frames]; rfl, base.trans atBase, top, ?_, ?_⟩, fun i inside => ?_⟩
  · have kept : FrameOf env th.slots th.top { call with savedpc := pc } active :=
      ⟨frame.current, frame.top, frame.nresults, frame.wanted, frame.extra, frame.room, frame.varargs, frame.regs⟩
    refine kept.withRegs (fun i v at_i => ?_) below
    obtain ⟨inside, value⟩ := known i v at_i
    exact ⟨by rw [top]; exact Nat.add_lt_add_left inside _, value⟩
  · exact chain.congr fun i inside => below i (by omega)
  · exact (below i (by omega)).trans (atFloor i inside)

theorem regs (rep : Represents env entry floor outer th active callers) (i : Nat) (v : V) (known : active.regs i = some v) :
    i < active.limit ∧ th.slots (th.base + i) = v := by
  obtain ⟨⟨call, cis, -, atBase, top, frame, -⟩, -⟩ := rep
  obtain ⟨inside, value⟩ := frame.regs i v known
  exact ⟨by omega, by rw [atBase, value]⟩

theorem top (rep : Represents env entry floor outer th active callers) : th.top = th.base + active.limit := by
  obtain ⟨⟨call, cis, -, atBase, top, -⟩, -⟩ := rep
  rw [top, atBase]

theorem unmoved (rep : Represents env entry floor outer th active callers) :
    ∃ pc, th.ci = th.ci.modifyHead fun ci => { ci with savedpc := pc } := by
  obtain ⟨⟨call, cis, frames, -⟩, -⟩ := rep
  exact ⟨call.savedpc, by rw [frames]; rfl⟩

theorem set (rep : Represents env entry floor outer th active callers) (r : Nat) (v : V) :
    Represents env entry floor outer (th.store (th.base + r) v) (active.set r v) callers := by
  have written (limit : Nat) (regs : Nat → Option V) (atLimit : limit = active.limit)
      (known : ∀ (i : Nat) (w : V), regs i = some w → i < limit ∧ if i = r then w = v else active.regs i = some w) :
      Represents env entry floor outer (th.store (th.base + r) v) { active with regs, limit } callers := by
    refine rep.rewrite rep.unmoved rfl (atLimit ▸ rep.top) (fun i below => Function.update_of_ne (by omega) ..) fun i w at_i => ?_
    obtain ⟨inside, value⟩ := known i w at_i
    refine ⟨inside, ?_⟩
    simp only [Thread.store, Function.update_apply, Nat.add_left_cancel_iff]
    split at value
    · next here => rw [if_pos here, value]
    · next elsewhere => rw [if_neg elsewhere, (rep.regs i w value).2]
  unfold Record.set
  split
  · next inside =>
    refine written _ _ rfl fun i w at_i => ?_
    rw [Function.update_apply] at at_i
    split at at_i
    · next here => exact ⟨here ▸ inside, by rw [if_pos here, Option.some.inj at_i]⟩
    · next elsewhere => exact ⟨(rep.regs i w at_i).1, by rw [if_neg elsewhere, at_i]⟩
  · next above =>
    refine written _ _ rfl fun i w at_i => ?_
    have inside := (rep.regs i w at_i).1
    exact ⟨inside, by rw [if_neg (by omega), at_i]⟩

theorem above (rep : Represents env entry floor outer th active callers) {es : List (StackEvent V)}
    (high : ∀ i v, StackEvent.store i v ∈ es → th.top ≤ i) : Represents env entry floor outer (th.events es) active callers := by
  have kept := Thread.events_keeps th es
  have top := rep.top
  have same (i : Nat) (inside : i < th.top) : (th.events es).slots i = th.slots i := Thread.events_slots inside high
  refine rep.rewrite (kept.ci ▸ rep.unmoved) (Thread.events_base ..) (kept.top.trans top) (fun i below => same i (by omega)) fun i v at_i => ?_
  obtain ⟨inside, value⟩ := rep.regs i v at_i
  exact ⟨inside, (same _ (by omega)).trans value⟩

theorem vararg (rep : Represents env entry floor outer th active callers) {p : Proto}
    (current : env.function? (th.slots (th.ci.headD {}).func) = some (.gafq p)) :
    Represents env entry floor outer (th.opVararg env p a b) (active.expand env a b) callers := by
  obtain ⟨call, cis, frames, atBase, -, frame, -⟩ := rep.frames
  have room := frame.room
  rw [frames, List.headD_cons, frame.current] at current
  obtain rfl : active.proto = p := by simpa using current
  have slots (i : Nat) : (th.opVararg env active.proto a b).slots i =
      if th.base + a ≤ i ∧ i < th.base + a + (if b = 0 then active.varargs.length else b - 1) then
        if i - (th.base + a) < active.varargs.length then th.slots (call.base - active.varargs.length + (i - (th.base + a)))
        else env.nil
      else th.slots i := by
    simp only [Thread.opVararg, frames, List.headD_cons, frame.extra]
  have ci : (th.opVararg env active.proto a b).ci = th.ci := by
    simp only [Thread.opVararg]
    split <;> simp
  have base : (th.opVararg env active.proto a b).base = th.base := by
    simp only [Thread.opVararg]
    split <;> simp
  have top : (th.opVararg env active.proto a b).top = if b = 0 then th.base + a + active.varargs.length else th.top := by
    simp only [Thread.opVararg, frames, List.headD_cons, frame.extra]
    split <;> rfl
  unfold Record.expand
  split
  · next isOpen =>
    rw [if_pos isOpen] at top
    simp only [if_pos isOpen] at slots
    refine rep.rewrite (ci ▸ rep.unmoved) base (top.trans (Nat.add_assoc ..)) (fun i below => ?_) fun i v at_i => ?_
    · rw [slots, if_neg (by omega)]
    · simp only [Record.put] at at_i
      split at at_i
      · exact ⟨by omega, by rw [slots, if_neg (by omega), (rep.regs i v at_i).2]⟩
      · have given := Option.join_eq_some_iff.1 at_i
        have inside := (List.getElem?_eq_some_iff.1 given).1
        refine ⟨by omega, ?_⟩
        rw [slots, if_pos (by omega), if_pos (by omega), ← frame.varargs _ v given]
        congr 2
        omega
  · next counted =>
    rw [if_neg counted] at top
    simp only [if_neg counted] at slots
    refine rep.rewrite (ci ▸ rep.unmoved) base (top.trans rep.top) (fun i below => ?_) fun i v at_i => ?_
    · rw [slots, if_neg (by omega)]
    · split at at_i
      · split at at_i
        · next inside =>
          refine ⟨inside, ?_⟩
          rw [slots, if_pos (by omega)]
          rw [List.getD_eq_getElem?_getD] at at_i
          split
          · next given =>
            rw [List.getElem?_eq_getElem (by omega), Option.getD_some] at at_i
            rw [← frame.varargs (i - a) v (by rw [List.getElem?_eq_getElem (by omega), at_i])]
            congr 2
            omega
          · next missing =>
            rw [List.getElem?_eq_none (by omega)] at at_i
            exact Option.some.inj at_i
        · cases at_i
      · obtain ⟨inside, value⟩ := rep.regs i v at_i
        exact ⟨inside, by rw [slots, if_neg (by omega), value]⟩

theorem takes_setTop (takes : th.Takes a b) : th.base + a < (th.setTop pc b (th.base + a + b)).top := by
  by_cases isOpen : b = 0
  · simpa [Thread.setTop, isOpen] using takes isOpen
  · simp only [Thread.setTop, isOpen, ne_eq, not_false_eq_true, if_true]
    omega

theorem arguments_agree (rep : Represents env entry floor outer th active callers) (hole : Bool) :
    ValuesAgree (active.arguments a b hole)
      ((if hole then [(th.setTop pc b (th.base + a + b)).slots (th.base + a)] else []) ++
        (th.setTop pc b (th.base + a + b)).values (th.base + a + 1) ((th.setTop pc b (th.base + a + b)).top - (th.base + a) - 1)) := by
  unfold Record.arguments
  refine .append ?_ ?_
  · cases hole with
    | false => exact .nil
    | true =>
      refine ⟨rfl, fun i v at_i => ?_⟩
      cases i with
      | zero => exact congrArg some (rep.regs a v (Option.some.inj at_i)).2
      | succ i => cases at_i
  · have atTop := rep.top
    have count : (th.setTop pc b (th.base + a + b)).top - (th.base + a) - 1 = if b = 0 then active.limit - (a + 1) else b - 1 := by
      by_cases isOpen : b = 0
      · simp only [Thread.setTop, isOpen, ne_eq, not_true_eq_false, if_true, if_false]
        omega
      · simp only [Thread.setTop, isOpen, ne_eq, not_false_eq_true, if_true, if_false]
        omega
    rw [count]
    exact @Record.values_agree V active (th.setTop pc b (th.base + a + b)) th.base (fun i v known => (rep.regs i v known).2) (a + 1) _

end Represents

/-! ## Calls -/

theorem precall_of_opCall (ran : th.opCall env pc a b c = .ok (.gafq, th')) :
    Thread.precall env (th.setTop pc b (th.base + a + b)) (th.base + a) (c - 1) = .ok (.gafq, th') := by
  simp only [Thread.opCall, bind, Except.bind] at ran
  cases called : Thread.precall env (th.setTop pc b (th.base + a + b)) (th.base + a) (c - 1) with
  | error e => simp [called] at ran
  | ok r =>
    simp only [called] at ran
    split at ran
    · cases ran
    · exact ran

theorem precallC_of_opCall (ran : th.opCall env pc a b c = .ok (.c, th')) :
    ∃ u, Thread.precall env (th.setTop pc b (th.base + a + b)) (th.base + a) (c - 1) = .ok (.c, u) ∧
      th' = if 0 ≤ (c : Int) - 1 then { u with top := (u.ci.headD {}).top } else u := by
  simp only [Thread.opCall, bind, Except.bind] at ran
  cases called : Thread.precall env (th.setTop pc b (th.base + a + b)) (th.base + a) (c - 1) with
  | error e => simp [called] at ran
  | ok r =>
    simp only [called] at ran
    split at ran
    · next adjusted =>
      cases ran
      exact ⟨r.2, by rw [← adjusted.1], by rw [if_pos adjusted.2]⟩
    · next notAdjusted =>
      cases ran
      exact ⟨th', rfl, (if_neg fun wanted => notAdjusted ⟨rfl, wanted⟩).symm⟩

theorem call_represents (quiet : env.Quiet) (rep : Represents env entry floor outer th active callers) {p : Proto} {hole : Bool}
    (takes : th.Takes a b) (calls : env.Calls (th.slots (th.base + a)) p hole) (ran : th.opCall env pc a b c = .ok (.gafq, th')) :
    Represents env entry floor outer th' (.start env p (active.arguments a b hole) (c - 1)) (active.suspend pc a :: callers) := by
  obtain ⟨call, frames, atFunc, base, top, frame, kept⟩ := Thread.precall_frameOf quiet (Represents.takes_setTop takes) (by omega)
    calls (rep.arguments_agree hole) (precall_of_opCall ran)
  obtain ⟨⟨caller, cis, callerFrames, atBase, -, callerFrame, chain⟩, atFloor⟩ := rep
  have room := callerFrame.room
  have entry_le := chain.entry_le
  have sameCI : (th.setTop pc b (th.base + a + b)).ci = caller :: cis := callerFrames
  rw [sameCI] at frames
  have suspended : FrameOf env th'.slots (caller.base + a) { caller with savedpc := pc } (active.suspend pc a) := by
    have moved : FrameOf env th.slots th.top { caller with savedpc := pc } active :=
      ⟨callerFrame.current, callerFrame.top, callerFrame.nresults, callerFrame.wanted, callerFrame.extra, callerFrame.room,
        callerFrame.varargs, callerFrame.regs⟩
    refine moved.withRegs (fun i v known => ?_) fun i inside => kept i (by simp only at inside; omega)
    split at known
    · next low =>
      refine ⟨Nat.add_lt_add_left low _, ?_⟩
      rw [kept _ (by simp only; omega)]
      exact (callerFrame.regs i v known).2
    · cases known
  have waiting : Callers env th'.slots entry outer caller.func cis callers := chain.congr fun i inside => kept i (by omega)
  refine ⟨⟨call, _, frames, base, top, frame, ?_⟩, fun i inside => (kept i (by omega)).trans (atFloor i inside)⟩
  rw [atFunc, atBase]
  exact @Callers.caller V env _ _ _ { caller with savedpc := pc } cis (active.suspend pc a) callers suspended rfl waiting

/-- The results of a function called are received. -/
theorem Represents.receive (rep : Represents env entry floor outer th active callers) {results : List V} {known : List (Option V)}
    {wanted : Int} {rest : List CallInfo} (agrees : ValuesAgree known results) (ci : ∃ pc, rest = th.ci.modifyHead fun ci => { ci with savedpc := pc })
    {u w : Thread V} (returned : Thread.Returned env w u (th.base + a) rest wanted results) (slots : ∀ i, i < th.base + a → w.slots i = th.slots i)
    (moved : th' = if 0 ≤ wanted then { u with top := (u.ci.headD {}).top } else u) :
    Represents env entry floor outer th' (active.receive env a wanted known) callers := by
  obtain ⟨pc, rfl⟩ := ci
  have adjusted := agrees.adjust env.nil wanted
  have same : th'.slots = u.slots ∧ th'.ci = u.ci ∧ th'.base = u.base ∧
      th'.top = if 0 ≤ wanted then (u.ci.headD {}).top else u.top := by
    rw [moved]
    split <;> exact ⟨rfl, rfl, rfl, rfl⟩
  obtain ⟨sameSlots, sameCI, sameBase, atTop⟩ := same
  have below (i : Nat) (inside : i < th.base + a) : th'.slots i = th.slots i := by
    rw [sameSlots, returned.below i inside, slots i inside]
  obtain ⟨call, cis, frames, atBase, -, frame, -⟩ := rep.frames
  refine rep.rewrite ⟨pc, sameCI.trans returned.ci⟩ ?_ ?_ (fun i inside => below i (by omega)) fun i v at_i => ?_
  · rw [sameBase, returned.base, frames]
    exact atBase.symm
  · rw [atTop, returned.ci, frames]
    by_cases all : wanted < 0
    · rw [if_neg (by omega), if_pos all, returned.top, adjusted.length, Nat.add_assoc]
    · rw [if_pos (by omega), if_neg all, atBase]
      exact frame.top
  · rw [ite_eq_iff] at at_i
    obtain ⟨inside, at_i⟩ | ⟨-, none⟩ := at_i
    · refine ⟨inside, ?_⟩
      simp only [Record.put] at at_i
      split at at_i
      · next low => rw [below _ (by omega), (rep.regs i v at_i).2]
      · next high =>
        have value := adjusted.value _ v (Option.join_eq_some_iff.1 at_i)
        rw [← returned.values, Thread.getElem?_values] at value
        split at value
        · rw [sameSlots, ← Option.some.inj value]
          congr 1
          omega
        · cases value
    · cases none

theorem callC_represents (quiet : env.Quiet) {w : Thread V} (rep : Represents env entry floor outer w active callers) {results : List V}
    (ci : w.ci = th.ci) (base : w.base = th.base) (takes : th.Takes a b)
    (leaves : env.Leaves (th.setTop pc b (th.base + a + b)) (th.base + a) (c - 1) results) (ran : th.opCall env pc a b c = .ok (.c, th'))
    (below : ∀ i, i < th.base + a → th'.slots i = w.slots i) :
    Represents env entry floor outer th' (active.receive env a (c - 1) (results.map some)) callers := by
  obtain ⟨u, called, moved⟩ := precallC_of_opCall ran
  have kept (i : Nat) (inside : i < th.base + a) : u.slots i = w.slots i := by
    rw [← below i inside, moved]
    split <;> rfl
  have returned := Thread.precall_returned quiet (Represents.takes_setTop takes) leaves called kept
  rw [← base] at returned
  exact rep.receive (.map_some results) ⟨pc, by rw [ci]; rfl⟩ returned (fun _ _ => rfl) moved

/-! ## Tail calls -/

/-- The frame of the function called takes the place of its caller's. -/
theorem replaceFrame_represents {u : Thread V} {call caller : CallInfo} {cis : List CallInfo} {r : Record V} {nresults : Int}
    (frames : u.ci = call :: caller :: cis) (top : u.top = call.base + r.limit) (full : r.limit = r.proto.maxstacksize.toNat)
    (frame : FrameOf env u.slots u.top call r)
    (moves : caller.func ≤ call.func) (sameResults : caller.nresults = nresults) (wanted : -1 ≤ nresults)
    (chain : Callers env u.slots entry outer caller.func cis callers) (atFloor : ∀ i, i < entry → u.slots i = floor i) :
    Represents env entry floor outer u.replaceFrame { r with nresults } callers := by
  have room := frame.room
  have entry_le := chain.entry_le
  have below (i : Nat) (inside : i < caller.func) : u.replaceFrame.slots i = u.slots i := by
    simp only [Thread.replaceFrame, frames, List.headD_cons, List.tail_cons]
    exact if_neg (by omega)
  have moved (i : Nat) (inside : call.func + i < u.top) : u.replaceFrame.slots (caller.func + i) = u.slots (call.func + i) := by
    simp only [Thread.replaceFrame, frames, List.headD_cons, List.tail_cons]
    rw [if_pos (by omega), Nat.add_sub_cancel_left]
  have newTop : u.replaceFrame.top = caller.func + (call.base - call.func) + r.limit := by
    simp only [Thread.replaceFrame, frames, List.headD_cons, List.tail_cons]
    omega
  refine ⟨⟨{ caller with
    base := caller.func + (call.base - call.func), top := caller.func + (u.top - call.func), savedpc := u.savedpc
    tailcalls := caller.tailcalls + 1 }, cis, ?_, ?_, newTop, ⟨?_, ?_, sameResults, wanted, ?_, ?_, fun j v at_j => ?_, fun i v known => ?_⟩, ?_⟩, ?_⟩
  · simp only [Thread.replaceFrame, frames, List.headD_cons, List.tail_cons]
  · simp only [Thread.replaceFrame, frames, List.headD_cons, List.tail_cons]
  · have current := moved 0 (by omega)
    rw [Nat.add_zero, Nat.add_zero] at current
    simp only [current]
    exact frame.current
  · simp only
    omega
  · have extra := frame.extra
    simp only
    omega
  · simp only
    omega
  · have inside : j < r.varargs.length := (List.getElem?_eq_some_iff.1 at_j).1
    have value := frame.varargs j v at_j
    have same := moved (call.base - r.varargs.length + j - call.func) (by omega)
    rw [← value]
    refine Eq.trans (congrArg _ ?_) (same.trans (congrArg _ ?_))
    · simp only
      omega
    · omega
  · obtain ⟨inside, value⟩ := frame.regs i v known
    have same := moved (call.base - call.func + i) (by omega)
    refine ⟨by simp only [newTop]; omega, ?_⟩
    rw [← value]
    refine Eq.trans (congrArg _ ?_) (same.trans (congrArg _ ?_))
    · simp only
      omega
    · omega
  · exact chain.congr below
  · exact fun i inside => (below i (by omega)).trans (atFloor i inside)

theorem precall_of_opTailcall (ran : th.opTailcall env pc a b = .ok (.gafq, th')) :
    ∃ u, Thread.precall env (th.setTop pc b (th.base + a + b)) (th.base + a) (-1) = .ok (.gafq, u) ∧ th' = u.replaceFrame := by
  simp only [Thread.opTailcall, bind, Except.bind] at ran
  cases called : Thread.precall env (th.setTop pc b (th.base + a + b)) (th.base + a) (-1) with
  | error e => simp [called] at ran
  | ok r =>
    simp only [called] at ran
    split at ran
    · next isGafq =>
      cases ran
      exact ⟨r.2, by rw [← isGafq], rfl⟩
    · next isC =>
      cases ran
      exact absurd rfl isC

theorem precallC_of_opTailcall (ran : th.opTailcall env pc a b = .ok (.c, th')) :
    Thread.precall env (th.setTop pc b (th.base + a + b)) (th.base + a) (-1) = .ok (.c, th') := by
  simp only [Thread.opTailcall, bind, Except.bind] at ran
  cases called : Thread.precall env (th.setTop pc b (th.base + a + b)) (th.base + a) (-1) with
  | error e => simp [called] at ran
  | ok r =>
    simp only [called] at ran
    split at ran
    · cases ran
    · exact ran

theorem tailcall_represents (quiet : env.Quiet) (rep : Represents env entry floor outer th active callers) {p : Proto} {hole : Bool}
    (takes : th.Takes a b) (calls : env.Calls (th.slots (th.base + a)) p hole) (ran : th.opTailcall env pc a b = .ok (.gafq, th')) :
    Represents env entry floor outer th' (.start env p (active.arguments a b hole) active.nresults) callers := by
  obtain ⟨u, called, rfl⟩ := precall_of_opTailcall ran
  obtain ⟨call, frames, atFunc, base, top, frame, kept⟩ := Thread.precall_frameOf quiet (Represents.takes_setTop takes) (by omega)
    calls (rep.arguments_agree hole) called
  obtain ⟨⟨caller, cis, callerFrames, atBase, -, callerFrame, chain⟩, atFloor⟩ := rep
  have room := callerFrame.room
  have entry_le := chain.entry_le
  have sameCI : (th.setTop pc b (th.base + a + b)).ci = caller :: cis := callerFrames
  rw [sameCI] at frames
  exact replaceFrame_represents frames top rfl frame (by simp only; omega) callerFrame.nresults callerFrame.wanted
    (chain.congr fun i inside => kept i (by omega)) fun i inside => (kept i (by omega)).trans (atFloor i inside)

theorem tailcallC_represents (quiet : env.Quiet) {w : Thread V} (rep : Represents env entry floor outer w active callers) {results : List V}
    (ci : w.ci = th.ci) (base : w.base = th.base) (takes : th.Takes a b)
    (leaves : env.Leaves (th.setTop pc b (th.base + a + b)) (th.base + a) (-1) results) (ran : th.opTailcall env pc a b = .ok (.c, th'))
    (below : ∀ i, i < th.base + a → th'.slots i = w.slots i) :
    Represents env entry floor outer th' (active.receive env a (-1) (results.map some)) callers := by
  have returned := Thread.precall_returned quiet (Represents.takes_setTop takes) leaves (precallC_of_opTailcall ran) below
  rw [← base] at returned
  exact rep.receive (.map_some results) ⟨pc, by rw [ci]; rfl⟩ returned (fun _ _ => rfl) (if_neg (by omega)).symm

/-! ## Returns -/

theorem results_agree (rep : Represents env entry floor outer th active callers) :
    ValuesAgree (active.results a b) ((th.setTop pc b (th.base + a + b - 1)).values (th.base + a)
      ((th.setTop pc b (th.base + a + b - 1)).top - (th.base + a))) := by
  have atTop := rep.top
  have count : (th.setTop pc b (th.base + a + b - 1)).top - (th.base + a) = if b = 0 then active.limit - a else b - 1 := by
    by_cases isOpen : b = 0
    · simp only [Thread.setTop, isOpen, ne_eq, not_true_eq_false, if_true, if_false]
      omega
    · simp only [Thread.setTop, isOpen, ne_eq, not_false_eq_true, if_true, if_false]
      omega
  rw [count]
  exact @Record.values_agree V active (th.setTop pc b (th.base + a + b - 1)) th.base (fun i v known => (rep.regs i v known).2) a _

theorem poscall_of_opReturn {last : Bool} (ran : th.opReturn env pc a b last = .ok th') :
    ∃ u more, Thread.poscall env (th.setTop pc b (th.base + a + b - 1)) (th.base + a) = .ok (u, more) ∧
      th' = if last = false ∧ more ≠ 0 then { u with top := (u.ci.headD {}).top } else u := by
  simp only [Thread.opReturn, bind, Except.bind] at ran
  cases returned : Thread.poscall env (th.setTop pc b (th.base + a + b - 1)) (th.base + a) with
  | error e => simp [returned] at ran
  | ok r =>
    simp only [returned, Bool.not_eq_true'] at ran
    refine ⟨r.1, r.2, rfl, ?_⟩
    split at ran
    · next adjusted => rw [if_pos adjusted, ← Except.ok.inj ran]
    · next notAdjusted => rw [if_neg notAdjusted, ← Except.ok.inj ran]

/-- The active function has returned from its frame. -/
theorem returned_of_opReturn (quiet : env.Quiet) (rep : Represents env entry floor outer th active callers) {last : Bool}
    (ran : th.opReturn env pc a b last = .ok th') :
    ∃ call cis u results, th.ci = call :: cis ∧ Callers env th.slots entry outer call.func cis callers ∧
      ValuesAgree (active.results a b) results ∧ Thread.Returned env th u call.func cis active.nresults results ∧
      th' = if last = false ∧ 0 ≤ active.nresults then { u with top := (u.ci.headD {}).top } else u := by
  have agrees : ValuesAgree (active.results a b) _ := @results_agree V env entry floor outer th active callers pc a b rep
  have limit := rep.top
  obtain ⟨u, more, poscalled, moved⟩ := poscall_of_opReturn ran
  obtain ⟨⟨call, cis, frames, atBase, atTop, frame, chain⟩, atFloor⟩ := rep
  have room := frame.room
  have wanted := frame.wanted
  have func_le : call.func ≤ (th.setTop pc b (th.base + a + b - 1)).top := by
    by_cases isOpen : b = 0
    · simp only [Thread.setTop, isOpen, ne_eq, not_true_eq_false, if_false]
      omega
    · simp only [Thread.setTop, isOpen, ne_eq, not_false_eq_true, if_true]
      omega
  have sameCI : (th.setTop pc b (th.base + a + b - 1)).ci = call :: cis := frames
  obtain ⟨rfl, returned⟩ := Thread.poscall_returned quiet sameCI func_le poscalled
  rw [frame.nresults] at returned moved
  refine ⟨call, cis, u, _, frames, chain, agrees, ⟨returned.ci, returned.base, returned.savedpc, returned.top, returned.values, returned.below⟩, ?_⟩
  rw [moved]
  congr 1
  exact propext (and_congr_right fun _ => ⟨fun some => by omega, fun some => by omega⟩)

/-- A function returns to the one that has called it. -/
theorem ret_represents (quiet : env.Quiet) {caller : Record V} (rep : Represents env entry floor outer th active (caller :: callers))
    (ran : th.opReturn env pc a b false = .ok th') :
    Represents env entry floor outer th' (caller.receive env caller.register active.nresults (active.results a b)) callers := by
  obtain ⟨call, cis, u, results, frames, chain, agrees, returned, moved⟩ := returned_of_opReturn quiet rep ran
  obtain ⟨ci, rest, rfl, bound, frame, resume, below⟩ := chain.of_cons
  rw [bound] at returned frame
  -- the caller, as if it had been active all the time
  have waiting : Represents env entry floor outer
      { th with ci := ci :: rest, base := ci.base, top := ci.base + caller.register } { caller with limit := caller.register } callers :=
    ⟨⟨ci, rest, rfl, rfl, rfl, ⟨frame.current, frame.top, frame.nresults, frame.wanted, frame.extra, frame.room, frame.varargs, frame.regs⟩,
      below⟩, rep.floor⟩
  refine waiting.receive agrees ⟨ci.savedpc, rfl⟩ returned (fun _ _ => rfl) ?_
  simpa using moved

/-- The values returned, and what `gafqV_execute` leaves to its caller. -/
structure Represents.Finished (env : CallEnv V) (entry : Nat) (floor : Nat → V) (outer : List CallInfo) (th : Thread V)
    (results : List (Option V)) : Prop where
  ci : th.ci = outer
  top : th.top = entry + results.length
  values : ValuesAgree results (th.values entry results.length)
  floor : ∀ i, i < entry → th.slots i = floor i

theorem last_represents (quiet : env.Quiet) (rep : Represents env entry floor outer th active [])
    (ran : th.opReturn env pc a b true = .ok th') :
    Represents.Finished env entry floor outer th' (Thread.adjust (some env.nil) active.nresults (active.results a b)) := by
  obtain ⟨call, cis, u, results, frames, chain, agrees, returned, moved⟩ := returned_of_opReturn quiet rep ran
  rw [if_neg (by simp)] at moved
  subst moved
  obtain ⟨atEntry, rfl⟩ := chain.of_nil
  rw [atEntry] at returned
  have adjusted := agrees.adjust env.nil active.nresults
  refine ⟨returned.ci, ?_, ?_, fun i inside => (returned.below i inside).trans (rep.floor i inside)⟩
  · rw [returned.top, adjusted.length]
  · rw [adjusted.length, returned.values]
    exact adjusted

/-! ## Assignments to other frames -/

/-- The stack holds the records of the functions under way, or the values they have returned. -/
def Execution.Holds (env : CallEnv V) (entry : Nat) (outer : List CallInfo) : Execution V → Records V → Prop
  | .running th n, .running s => Represents env entry s.below outer th s.active s.callers ∧ n = s.callers.length + 1
  | .finished th, .finished below results => Represents.Finished env entry below outer th results
  | _, _ => False

theorem Execution.Holds.assign {s : RecordStack V} {n : Nat} {place : Place} {v : V}
    (holds : (Execution.running th n).Holds env entry outer (.running s)) (assigned : th.assign n place v = some th') :
    (Execution.running th' n).Holds env entry outer (.running (s.assign v place)) := by
  obtain ⟨rep, rfl⟩ := holds
  obtain ⟨i, at_place, rfl⟩ := Option.map_eq_some_iff.1 assigned
  obtain ⟨⟨call, cis, frames, atBase, atTop, frame, chain⟩, atFloor⟩ := rep
  cases place with
  | register depth r =>
    cases depth with
    | zero =>
      cases at_place
      exact ⟨Represents.set ⟨⟨call, cis, frames, atBase, atTop, frame, chain⟩, atFloor⟩ r v, rfl⟩
    | succ depth =>
      simp only [Thread.slot?, frames] at at_place
      split at at_place
      · next called target at_called at_target =>
        obtain ⟨⟨inside, below⟩, ⟨⟩⟩ := Option.ite_none_right_eq_some.1 at_place
        obtain ⟨low, high, assigned⟩ := chain.assign (by omega) at_called at_target below v
        refine ⟨⟨⟨call, cis, frames, atBase, atTop, ?_, assigned⟩, fun j outside => ?_⟩, by simp [RecordStack.assign]⟩
        · exact frame.congr_above fun j above => Function.update_of_ne (by omega) ..
        · exact (Function.update_of_ne (by omega) ..).trans (atFloor j outside)
      · cases at_place
  | outside j =>
    simp only [Thread.slot?, frames, Nat.add_sub_cancel] at at_place
    split at at_place
    · next first at_first =>
      obtain ⟨outside, ⟨⟩⟩ := Option.ite_none_right_eq_some.1 at_place
      rw [chain.first_func at_first] at outside
      have entry_le := chain.entry_le
      refine ⟨⟨⟨call, cis, frames, atBase, atTop, ?_, ?_⟩, fun k low => ?_⟩, rfl⟩
      · exact frame.congr_above fun k above => Function.update_of_ne (by omega) ..
      · exact chain.congr_above fun k above => Function.update_of_ne (by omega) ..
      · simp only [Thread.store, RecordStack.assign, Function.update_apply, atFloor k low]
    · cases at_place

theorem Thread.assign_frames {n : Nat} {place : Place} {v : V} (assigned : th.assign n place v = some th') :
    th'.ci = th.ci ∧ th'.base = th.base := by
  obtain ⟨i, -, rfl⟩ := Option.map_eq_some_iff.1 assigned
  exact ⟨rfl, rfl⟩

theorem Execution.Holds.assignAll {s : RecordStack V} {n : Nat} {writes : List (Place × V)}
    (holds : (Execution.running th n).Holds env entry outer (.running s)) (assigns : th.assignAll n writes = some th') :
    (Execution.running th' n).Holds env entry outer (.running (s.assignAll writes)) ∧ th'.ci = th.ci ∧ th'.base = th.base := by
  induction writes generalizing th s with
  | nil =>
    cases assigns
    exact ⟨holds, rfl, rfl⟩
  | cons write writes inductionHypothesis =>
    obtain ⟨w, assigned, rest⟩ := Option.bind_eq_some_iff.1 assigns
    obtain ⟨holds, ci, base⟩ := inductionHypothesis (holds.assign assigned) rest
    obtain ⟨ci', base'⟩ := Thread.assign_frames assigned
    exact ⟨holds, ci.trans ci', base.trans base'⟩

/-! ## Runs -/

theorem step_refines (quiet : env.Quiet) {s s' : Execution V} {l : CallLabel V} {t : Records V} (step : Execution.Step env s l s')
    (holds : s.Holds env entry outer t) : ∃ t', Records.Step env t l t' ∧ s'.Holds env entry outer t' := by
  cases s with
  | finished th => cases step
  | running th n =>
  cases t with
  | finished below results => exact holds.elim
  | running s =>
  obtain ⟨rep, count⟩ := holds
  have mayCall {a : Nat} {p : Proto} {hole : Bool} (calls : env.Calls (th.slots (th.base + a)) p hole) :
      env.MayCall (s.active.regs a) p hole := by
    intro v known
    rwa [← (rep.regs a v known).2]
  cases step with
  | set => exact ⟨_, .set, rep.set _ _, count⟩
  | assign assigned => exact ⟨_, .assign, Execution.Holds.assign ⟨rep, count⟩ assigned⟩
  | above high => exact ⟨_, .above, rep.above high, count⟩
  | vararg current => exact ⟨_, .vararg, rep.vararg current, count⟩
  | call takes calls ran => exact ⟨_, .call (mayCall calls), call_represents quiet rep takes calls ran, congrArg (· + 1) count⟩
  | callC takes leaves ran assigns below =>
    obtain ⟨⟨assigned, count⟩, ci, base⟩ := Execution.Holds.assignAll ⟨rep, count⟩ assigns
    exact ⟨_, .callC, callC_represents quiet assigned ci base takes leaves ran below, count⟩
  | tailcall takes calls ran => exact ⟨_, .tailcall (mayCall calls), tailcall_represents quiet rep takes calls ran, count⟩
  | tailcallC takes leaves ran assigns below =>
    obtain ⟨⟨assigned, count⟩, ci, base⟩ := Execution.Holds.assignAll ⟨rep, count⟩ assigns
    exact ⟨_, .tailcallC, tailcallC_represents quiet assigned ci base takes leaves ran below, count⟩
  | ret ran =>
    obtain ⟨floor, active, callers⟩ := s
    cases callers with
    | nil => exact absurd count (by simp)
    | cons caller callers => exact ⟨_, .ret, ret_represents quiet rep ran, Nat.succ.inj count⟩
  | last ran =>
    obtain ⟨floor, active, callers⟩ := s
    cases callers with
    | nil => exact ⟨_, .last, last_represents quiet rep ran⟩
    | cons caller callers => exact absurd count (by simp)

theorem run_refines (quiet : env.Quiet) {s s' : Execution V} {labels : List (CallLabel V)} {t : Records V}
    (run : LabelledRun (Execution.Step env) s labels s') (holds : s.Holds env entry outer t) :
    ∃ t', LabelledRun (Records.Step env) t labels t' ∧ s'.Holds env entry outer t' :=
  run.simulate (fun _ _ _ _ step holds => step_refines quiet step holds) holds

/-- The values that a call passes to the function that it calls, the value called with them when its tag method is. -/
def Thread.passed (th : Thread V) (func : Nat) (hole : Bool) : List V :=
  (if hole then [th.slots func] else []) ++ th.values (func + 1) (th.top - func - 1)

/-- The records when the function has been called on `th`. -/
def RecordStack.called (env : CallEnv V) (th : Thread V) (func : Nat) (p : Proto) (hole : Bool) (nresults : Int) : RecordStack V :=
  ⟨th.slots, .start env p ((th.passed func hole).map some) nresults, []⟩

theorem precall_holds (quiet : env.Quiet) {func : Nat} {p : Proto} {hole : Bool} {nresults : Int} (takes : func < th.top)
    (wanted : -1 ≤ nresults) (calls : env.Calls (th.slots func) p hole)
    (called : Thread.precall env th func nresults = .ok (.gafq, th')) :
    (Execution.running th' 1).Holds env func (th.ci.modifyHead fun ci => { ci with savedpc := th.savedpc })
      (.running (.called env th func p hole nresults)) := by
  obtain ⟨call, frames, atFunc, base, top, frame, kept⟩ := Thread.precall_frameOf quiet takes wanted calls (.map_some _) called
  refine ⟨⟨⟨call, _, frames, base, top, frame, ?_⟩, kept⟩, rfl⟩
  rw [atFunc]
  exact .entry

/-- In every run of `gafqV_execute` that a call starts, over whatever functions it calls, the functions find
their registers and extra arguments as if each had its own: the stack holds at every point what the activation
records of the same calls hold, in which a register changes only when it is written or assigned to.  When the
function called returns, its caller finds the values returned where the function was, as many as it wants, and
the stack below as it was but for what was assigned to. -/
theorem calls_refine_records (quiet : env.Quiet) {func : Nat} {p : Proto} {hole : Bool} {nresults : Int} {labels : List (CallLabel V)}
    {s : Execution V} (takes : func < th.top) (wanted : -1 ≤ nresults) (calls : env.Calls (th.slots func) p hole)
    (called : Thread.precall env th func nresults = .ok (.gafq, th')) (run : LabelledRun (Execution.Step env) (.running th' 1) labels s) :
    ∃ t, LabelledRun (Records.Step env) (.running (.called env th func p hole nresults)) labels t ∧
      s.Holds env func (th.ci.modifyHead fun ci => { ci with savedpc := th.savedpc }) t :=
  run_refines quiet run (precall_holds quiet takes wanted calls called)

theorem plainEnv_quiet : Thread.plainEnv.Quiet where
  hooks _ _ _ hooked := by cases hooked
  collector _ _ _ stored := by cases stored
  callC _ _ _ _ called := by cases called

/-- `twoParams` calls itself with no argument; the function called assigns to the first register of its caller and
to the slot below both, and passes on the one value returned. -/
theorem calls_refine_records_twoParams :
    ∃ th', Thread.precall Thread.plainEnv (Thread.callingThread Thread.twoParams 1) 1 0 = .ok (.gafq, th') ∧
      ∃ s, LabelledRun (Execution.Step Thread.plainEnv) (.running th' 1)
          [.set 1 (some Thread.twoParams), .call 1 1 1 2 Thread.twoParams false, .assign (.register 1 0) (some Thread.twoParams),
            .assign (.outside 0) none, .vararg 0 0, .ret 2 0 0, .ret 2 0 2] s ∧
        ∃ t, LabelledRun (Records.Step Thread.plainEnv)
            (.running (.called Thread.plainEnv (Thread.callingThread Thread.twoParams 1) 1 Thread.twoParams false 0))
            [.set 1 (some Thread.twoParams), .call 1 1 1 2 Thread.twoParams false, .assign (.register 1 0) (some Thread.twoParams),
              .assign (.outside 0) none, .vararg 0 0, .ret 2 0 0, .ret 2 0 2] t ∧
          s.Holds Thread.plainEnv 1 [{ base := 1, top := 1 + minStack }] t := by
  refine ⟨_, rfl, Exists.imp (fun s run => ⟨run, @calls_refine_records _ Thread.plainEnv (Thread.callingThread Thread.twoParams 1) _ plainEnv_quiet
    1 Thread.twoParams false 0 _ s (by decide) (by decide) rfl rfl run⟩) ?_⟩
  exact ⟨_, .head .set (.head (.call (fun isOpen => absurd isOpen Nat.one_ne_zero) rfl rfl)
    (.head (.assign rfl) (.head (.assign rfl) (.head (.vararg rfl) (.head (.ret rfl) (.single (.last rfl)))))))⟩

end Gafq
