import Gafq.Verified.CallResults

/-! # What passes between coroutines

The conversation of a coroutine with the threads that resume it follows a small protocol, the
`Exchange` relation between its phases.  `InPhase` says what a phase means for the thread in the
model: deadness, for one, is no field of a thread but a combination of its status, its frames and
the height of its stack.  Every step of the system is an exchange for one coroutine and leaves the
phase of each other one alone.

The runs considered are those where the values that a body returns fit on the stack of its resumer.
When they do not, `auxresume` raises its error with the values still on the stack of a coroutine
whose status is 0, and that is how a coroutine that has not been started looks.
-/

namespace Gafq

open Thread

variable {V : Type}

/-! ## The protocol -/

inductive Phase (V : Type) where
  | fresh (body : V)
  | running
  | suspended (site : CallSite)
  | dead

/-- What `resume` (with `true` first) or a function made by `wrap` returns. -/
def returned (env : CoEnv V) (wrap : Bool) (values : List V) : List V :=
  if wrap then values else env.boolean true :: values

inductive Exchange (env : CoEnv V) : Phase V → List (CoEvent V) → Phase V → Prop
  | own {phase : Phase V} : Exchange env phase [] phase
  | refused {phase : Phase V} : Exchange env phase [.refused] phase
  /-- the arguments of the first resume are those of the body -/
  | start {body : V} {args : List V} : Exchange env (.fresh body) [.resumeCall args, .bodyStart body args] .running
  /-- the arguments of a yield are the results of the resume -/
  | yield {site : CallSite} {args : List V} {wrap : Bool} :
      Exchange env .running [.yieldCall site args, .resumeReturn wrap (returned env wrap args)] (.suspended site)
  /-- the arguments of the next resume are the results of the yield, in the place of its call -/
  | continue {site : CallSite} {args : List V} :
      Exchange env (.suspended site)
        [.resumeCall args, .yieldReturn site (adjust env.nil site.wanted args)] .running
  | finish {results : List V} {wrap : Bool} :
      Exchange env .running [.bodyReturn results, .resumeReturn wrap (returned env wrap results)] .dead
  | fail : Exchange env .running [.bodyError, .resumeError] .dead
  | startFails {body : V} {args : List V} :
      Exchange env (.fresh body) [.resumeCall args, .bodyError, .resumeError] .dead
  | continueFails {site : CallSite} {args : List V} :
      Exchange env (.suspended site) [.resumeCall args, .bodyError, .resumeError] .dead
  /-- too many nested C calls -/
  | startOverflow {body : V} {args : List V} :
      Exchange env (.fresh body) [.resumeCall args, .resumeError] .dead
  | continueOverflow {site : CallSite} {args : List V} :
      Exchange env (.suspended site) [.resumeCall args, .resumeError] (.suspended site)
  /-- the stack of the resumer has no room for the values -/
  | yieldTooMany {site : CallSite} {args : List V} :
      Exchange env .running [.yieldCall site args, .resumeError] (.suspended site)

/-! ## Phases of a thread -/

/-- The frames of a started coroutine: the body was called with nothing below it. -/
def Bodied (ci : List CallInfo) : Prop :=
  ∃ above body bottom, ci = above ++ [body, bottom] ∧ body.func = bottom.base ∧ body.nresults = -1 ∧
    bottom.isGafq = false

structure Fresh (env : CoEnv V) (body : V) (co : Coroutine V) : Prop where
  status : co.status = .ok
  frames : ∃ bottom, co.ci = [bottom] ∧ bottom.base = co.base ∧ bottom.isGafq = false
  top : co.top = co.base + 1
  slot : co.slots co.base = body
  function : ∃ p, env.function? body = some (.gafq p)

structure Running (co : Coroutine V) : Prop where
  status : co.status = .ok
  bodied : Bodied co.ci

structure Suspended (site : CallSite) (co : Coroutine V) : Prop where
  status : co.status = .yield
  frames : ∃ call, co.ci = call :: site.frames ∧ call.isGafq = false ∧ co.base = call.func + 1 ∧
    call.base = call.func + 1 ∧ call.nresults = site.wanted ∧ call.func = site.func
  bodied : Bodied site.frames
  wants : -1 ≤ site.wanted
  top : co.base ≤ co.top

def Dead (co : Coroutine V) : Prop :=
  co.status = .error ∨ co.status = .ok ∧ co.ci.length = 1 ∧ co.gettop = 0

namespace CoSystem

def ids (s : CoSystem V) : List Nat := s.active.map Prod.fst

/-- What a phase of coroutine `id` means for the system. -/
def InPhase (env : CoEnv V) (s : CoSystem V) (id : Nat) : Phase V → Prop
  | .fresh body => id ∉ s.ids ∧ Fresh env body (s.thread id)
  | .running => id ∈ s.ids ∧ Running (s.thread id)
  | .suspended site => id ∉ s.ids ∧ Suspended site (s.thread id)
  | .dead => id ∉ s.ids ∧ Dead (s.thread id)

@[simp] theorem set_thread_same (s : CoSystem V) (id : Nat) (co : Coroutine V) : (s.set id co).thread id = co := by
  simp [set]

theorem set_thread_other (s : CoSystem V) {id other : Nat} (co : Coroutine V) (different : other ≠ id) :
    (s.set id co).thread other = s.thread other := by
  simp [set, different]

@[simp] theorem set_active (s : CoSystem V) (id : Nat) (co : Coroutine V) : (s.set id co).active = s.active := rfl

@[simp] theorem set_ids (s : CoSystem V) (id : Nat) (co : Coroutine V) : (s.set id co).ids = s.ids := rfl

end CoSystem

/-! ## Changes that keep a phase -/

/-- A frame with another limit for its stack. -/
def CallInfo.withTop (f : Nat → Nat) (ci : CallInfo) : CallInfo := { ci with top := f ci.top }

theorem Bodied.withTop {ci : List CallInfo} (bodied : Bodied ci) (f : Nat → Nat) :
    Bodied (ci.modifyHead (CallInfo.withTop f)) := by
  obtain ⟨above, body, bottom, rfl, func, nresults, native⟩ := bodied
  cases above with
  | nil => exact ⟨[], body.withTop f, bottom, rfl, func, nresults, native⟩
  | cons call above => exact ⟨call.withTop f :: above, body, bottom, rfl, func, nresults, native⟩

theorem apiCheckstack_spec {th checked : Thread V} {n : Nat} (room : th.apiCheckstack n = some checked) :
    checked.slots = th.slots ∧ checked.top = th.top ∧ checked.base = th.base ∧
      (∃ f, checked.ci = th.ci.modifyHead (CallInfo.withTop f)) ∧ th.gettop + n ≤ maxCStack := by
  simp only [apiCheckstack] at room
  split at room
  · cases room
  · rename_i fits
    have small : th.gettop + n ≤ maxCStack := by omega
    split at room
    · cases room
      refine ⟨by simp [updateCI], by simp [updateCI], by simp [updateCI],
        ⟨fun top => max top (th.top + n), ?_⟩, small⟩
      simp only [updateCI, checkstack_ci]
      rfl
    · cases room
      refine ⟨rfl, rfl, rfl, ⟨fun top => top, ?_⟩, small⟩
      cases frames : th.ci <;> simp [CallInfo.withTop]

/-- A waiting thread whose stack is changed, but not its status or its frames. -/
structure Waits (co co' : Coroutine V) : Prop where
  status : co'.status = co.status
  frames : ∃ f, co'.ci = co.ci.modifyHead (CallInfo.withTop f)

theorem Waits.of_ci {co co' : Coroutine V} (status : co'.status = co.status) (ci : co'.ci = co.ci) :
    Waits co co' := by
  refine ⟨status, fun top => top, ?_⟩
  rw [ci]
  cases co.ci <;> rfl

theorem Waits.trans {co co' co'' : Coroutine V} (first : Waits co co') (second : Waits co' co'') : Waits co co'' := by
  obtain ⟨f, frames⟩ := first.frames
  obtain ⟨g, frames'⟩ := second.frames
  refine ⟨second.status.trans first.status, fun top => g (f top), ?_⟩
  rw [frames', frames]
  cases co.ci <;> rfl

theorem Running.waits {co co' : Coroutine V} (running : Running co) (waits : Waits co co') : Running co' := by
  obtain ⟨f, frames⟩ := waits.frames
  exact ⟨waits.status.trans running.status, by rw [frames]; exact running.bodied.withTop f⟩

theorem finishResume_ci (env : CoEnv V) (wrap : Bool) (th : Thread V) (n : Nat) :
    (finishResume env wrap th n).ci = th.ci := by
  cases wrap <;> rfl

theorem passArguments_waits {resumer co resumer' co' : Coroutine V} {checked : Thread V} {narg : Nat}
    (passed : passArguments resumer co checked narg = (resumer', co')) : Waits resumer resumer' := by
  cases passed
  exact .of_ci rfl rfl

theorem passMessage_waits (resumer co : Coroutine V) : Waits resumer (passMessage resumer co).1 :=
  .of_ci rfl rfl

theorem passResults_waits (env : CoEnv V) {resumer co : Coroutine V} {checked : Thread V} {n m : Nat} {wrap : Bool}
    (room : resumer.apiCheckstack m = some checked) :
    Waits resumer (passResults env resumer co checked n wrap).1 := by
  obtain ⟨-, -, -, ⟨f, frames⟩, -⟩ := apiCheckstack_spec room
  refine ⟨rfl, f, ?_⟩
  show (finishResume env wrap (checked.xmoveTo co.toThread n) n).ci = _
  rw [finishResume_ci]
  exact frames

theorem correctTop_spec (th : Thread V) (more : Int) :
    (th.correctTop more).ci = th.ci ∧ (th.correctTop more).slots = th.slots ∧
      (more = 0 → (th.correctTop more).top = th.top) := by
  unfold correctTop
  split
  · rename_i closed
    exact ⟨rfl, rfl, fun isOpen => absurd isOpen closed⟩
  · exact ⟨rfl, rfl, fun _ => rfl⟩

/-! ## Into a coroutine -/

section Enter

variable {env : CoEnv V} {resumer co resumer' resumed resumed' : Coroutine V} {checked : Thread V} {narg : Nat}

/-- The arguments are on top of the coroutine's stack, above all it had. -/
theorem passArguments_spec (room : co.apiCheckstack narg = some checked)
    (passed : passArguments resumer co checked narg = (resumer', resumed)) :
    resumed.status = co.status ∧ resumed.base = co.base ∧ resumed.top = co.top + narg ∧
      (∃ f, resumed.ci = co.ci.modifyHead (CallInfo.withTop f)) ∧
      (∀ i, i < co.top → resumed.slots i = co.slots i) ∧
      resumed.topValues narg = resumer.topValues narg := by
  obtain ⟨slots, top, base, frames, -⟩ := apiCheckstack_spec room
  cases passed
  refine ⟨rfl, base, congrArg (· + narg) top, frames, fun i below => ?_, xmoveTo_topValues checked resumer.toThread⟩
  exact (xmoveTo_below checked resumer.toThread (top ▸ below)).trans (congrFun slots i)

/-- The first resume calls the body with the arguments given. -/
theorem Fresh.enter {body : V} (fresh : Fresh env body co) (room : co.apiCheckstack narg = some checked)
    (passed : passArguments resumer co checked narg = (resumer', resumed))
    (resumes : (enterResume resumed).resume env.toCallEnv (resumed.top - narg) = .ok (.gafq, resumed')) :
    resumed.status = .ok ∧ resumed.slots (resumed.top - narg - 1) = body ∧
      resumed.topValues narg = resumer.topValues narg ∧ Running resumed' := by
  obtain ⟨status, base, top, ⟨f, frames⟩, slots, values⟩ := passArguments_spec room passed
  obtain ⟨bottom, single, bottomBase, native⟩ := fresh.frames
  have isOk : resumed.status = .ok := status.trans fresh.status
  have position : resumed.top - narg - 1 = co.base := by rw [top, fresh.top]; omega
  have function : resumed.slots (resumed.top - narg - 1) = body := by
    rw [position, slots co.base (by rw [fresh.top]; omega)]
    exact fresh.slot
  refine ⟨isOk, function, values, ?_⟩
  obtain ⟨p, closure⟩ := fresh.function
  have isOk' : (enterResume resumed).status = .ok := isOk
  simp only [Coroutine.resume, isOk', bind, Except.bind] at resumes
  cases called : Thread.precall env.toCallEnv (enterResume resumed).toThread (resumed.top - narg - 1) (-1) with
  | error e => simp [called] at resumes
  | ok result =>
    simp only [called] at resumes
    obtain ⟨kind, th⟩ := result
    cases resumes
    obtain ⟨call, ci, func, nresults⟩ := precall_frames (p := p)
      (by show env.function? (resumed.slots _) = _; rw [function]; exact closure) called
    have under : (enterResume resumed).ci = [bottom.withTop f] := by
      show resumed.ci = _
      rw [frames, single]
      rfl
    refine ⟨rfl, [], call, { bottom.withTop f with savedpc := (enterResume resumed).savedpc }, ?_, ?_, nresults, native⟩
    · rw [ci, under]
      rfl
    · rw [func, position]
      exact bottomBase.symm

/-- A later resume completes the call of `yield` with the arguments given. -/
theorem Suspended.enter {site : CallSite} (suspended : Suspended site co)
    (room : co.apiCheckstack narg = some checked)
    (passed : passArguments resumer co checked narg = (resumer', resumed))
    (resumes : (enterResume resumed).resume env.toCallEnv (resumed.top - narg) = .ok (.gafq, resumed')) :
    resumed.status ≠ .ok ∧ Running resumed' ∧
      (QuietHooks env.toCallEnv →
        (⟨resumed'.ci, (resumed.ci.headD {}).func, (resumed.ci.headD {}).nresults⟩ : CallSite) = site ∧
        resumed'.values (resumed.ci.headD {}).func
            (if (resumed.ci.headD {}).nresults < 0 then resumed'.top - (resumed.ci.headD {}).func
              else (resumed.ci.headD {}).nresults.toNat) =
          adjust env.nil site.wanted (resumer.topValues narg)) := by
  obtain ⟨status, base, top, ⟨f, frames⟩, slots, values⟩ := passArguments_spec room passed
  obtain ⟨call, ci, native, callBase, -, wanted, func⟩ := suspended.frames
  have isYield : resumed.status = .yield := status.trans suspended.status
  have under : resumed.ci = call.withTop f :: site.frames := by rw [frames, ci]; rfl
  refine ⟨by rw [isYield]; decide, ?_⟩
  have isYield' : (enterResume resumed).status = .yield := isYield
  have under' : (enterResume resumed).ci = call.withTop f :: site.frames := under
  have native' : ((enterResume resumed).ci.headD {}).isGafq = false := by rw [under']; exact native
  simp only [Coroutine.resume, isYield', native', Bool.false_eq_true, if_false, bind, Except.bind] at resumes
  cases returned : Thread.poscall env.toCallEnv (enterResume resumed).toThread (resumed.top - narg) with
  | error e => simp [returned] at resumes
  | ok result =>
    obtain ⟨th, more⟩ := result
    simp only [returned] at resumes
    obtain ⟨hooked, kept, moreEq, movedEq⟩ := poscall_spec under' returned
    cases resumes
    rw [under]
    simp only [List.headD_cons, CallInfo.withTop] at moreEq movedEq ⊢
    obtain ⟨thCi, thSlots, thTop⟩ := correctTop_spec th more
    have movedCi : th.ci = site.frames := by rw [movedEq]; rfl
    refine ⟨⟨rfl, by rw [thCi, movedCi]; exact suspended.bodied⟩, fun quiet => ?_⟩
    have hookedSlots : ∀ i, i < resumed.top → hooked.slots i = resumed.slots i := kept.slots quiet
    constructor
    · rw [thCi, movedCi, func, wanted]
    · have results := moveResults_values env.toCallEnv { hooked with
        ci := site.frames, base := (site.frames.headD {}).base, savedpc := (site.frames.headD {}).savedpc }
        call.func (resumed.top - narg) call.nresults
      rw [← movedEq] at results
      have arguments : ({ hooked with
          ci := site.frames, base := (site.frames.headD {}).base,
          savedpc := (site.frames.headD {}).savedpc } : Thread V).values (resumed.top - narg)
            (hooked.top - (resumed.top - narg)) = resumer.topValues narg := by
        have same : (enterResume resumed).top = resumed.top := rfl
        have count : hooked.top - (resumed.top - narg) = narg := by
          have := kept.top
          omega
        rw [count, ← values]
        exact values_congr fun i low => hookedSlots _ (by omega)
      have count : (if call.nresults < 0 then (th.correctTop more).top - call.func else call.nresults.toNat) =
          if call.nresults < 0 then th.top - call.func else call.nresults.toNat := by
        split
        · have wants := suspended.wants
          rw [thTop (by omega)]
        · rfl
      show (th.correctTop more).values call.func
        (if call.nresults < 0 then (th.correctTop more).top - call.func else call.nresults.toNat) = _
      rw [count, ← wanted, ← arguments, ← results]
      exact values_congr fun i _ => by rw [thSlots]

/-- `resume_error` on a coroutine that was never started takes its body away. -/
theorem Fresh.overflow {body : V} (fresh : Fresh env body co) (room : co.apiCheckstack narg = some checked)
    (passed : passArguments resumer co checked narg = (resumer', resumed)) (message : V) :
    Dead (passMessage resumer' (resumed.resumeError message)).2 := by
  obtain ⟨status, base, -, ⟨f, frames⟩, -, -⟩ := passArguments_spec room passed
  obtain ⟨bottom, single, bottomBase, -⟩ := fresh.frames
  have under : resumed.ci = [bottom.withTop f] := by rw [frames, single]; rfl
  have length : resumed.ci.length = 1 := by rw [under]; rfl
  refine .inr ⟨status.trans fresh.status, length, ?_⟩
  show (resumed.ci.headD {}).base + 1 - 1 - resumed.base = 0
  rw [under, base]
  simp only [List.headD_cons, CallInfo.withTop]
  omega

/-- On a suspended one it takes only the arguments away. -/
theorem Suspended.overflow {site : CallSite} (suspended : Suspended site co)
    (room : co.apiCheckstack narg = some checked)
    (passed : passArguments resumer co checked narg = (resumer', resumed)) (message : V) :
    Suspended site (passMessage resumer' (resumed.resumeError message)).2 := by
  obtain ⟨status, base, -, ⟨f, frames⟩, -, -⟩ := passArguments_spec room passed
  obtain ⟨call, ci, native, coBase, callBase, wanted, func⟩ := suspended.frames
  have under : resumed.ci = call.withTop f :: site.frames := by rw [frames, ci]; rfl
  have position : (resumed.ci.headD {}).base = call.func + 1 := by rw [under]; exact callBase
  refine ⟨status.trans suspended.status, ⟨call.withTop f, under, native, base.trans coBase, callBase, wanted, func⟩,
    suspended.bodied, suspended.wants, ?_⟩
  show resumed.base ≤ (resumed.ci.headD {}).base + 1 - 1
  rw [position, base]
  omega

end Enter

/-! ## Out of a coroutine -/

section Leave

variable {env : CoEnv V} {resumer co : Coroutine V} {checked : Thread V}

theorem dead_die (co : Coroutine V) (message : V) (resumer : Coroutine V) :
    Dead (passMessage resumer (co.die message)).2 := .inl rfl

/-- The frame under a call made by a Gafq function is not the bottom of the stack. -/
theorem Bodied.under {call caller : CallInfo} {frames : List CallInfo} (bodied : Bodied (call :: caller :: frames))
    (gafq : caller.isGafq = true) : Bodied (caller :: frames) := by
  obtain ⟨above, body, bottom, same, func, nresults, native⟩ := bodied
  cases above with
  | nil =>
    cases same
    rw [native] at gafq
    cases gafq
  | cons first above =>
    obtain ⟨-, rest⟩ := List.cons.inj same
    exact ⟨above, body, bottom, rest, func, nresults, native⟩

/-- A running coroutine that calls `yield` is suspended in that call. -/
theorem Running.suspends {co' : Coroutine V} {call caller : CallInfo} {frames : List CallInfo}
    (running : Running co) (calling : co.ci = call :: caller :: frames) (native : call.isGafq = false)
    (frame : co.base = call.func + 1 ∧ call.base = call.func + 1 ∧ call.func < co.top)
    (gafq : caller.isGafq = true) (wants : -1 ≤ call.nresults) (status : co'.status = .yield)
    (ci : co'.ci = co.ci) (base : co'.base = co.base) (top : co'.base ≤ co'.top) : Suspended co.callSite co' := by
  have site : co.callSite = ⟨caller :: frames, call.func, call.nresults⟩ := by
    simp [Coroutine.callSite, calling]
  have bodied : Bodied (caller :: frames) := by
    have all := running.bodied
    rw [calling] at all
    exact all.under gafq
  rw [site]
  exact ⟨status, ⟨call, ci.trans calling, native, base.trans frame.1, frame.2.1, rfl, rfl⟩, bodied, wants, top⟩

/-- What the resumer finds on its stack. -/
theorem passResults_values (env : CoEnv V) (resumer co : Coroutine V) (checked : Thread V) (n : Nat) (wrap : Bool) :
    (passResults env resumer co checked n wrap).1.topValues (resumeCount wrap n) =
      returned env wrap (co.topValues n) := by
  cases wrap with
  | true => exact xmoveTo_topValues checked co.toThread
  | false =>
    show ((checked.xmoveTo co.toThread n).push (env.boolean true) |>.insert (n + 1)).topValues (n + 1) = _
    rw [push_insert_topValues _ _ (by show n ≤ checked.top + n; omega), xmoveTo_topValues]
    rfl

/-- A body that returns leaves exactly its results on the stack of the coroutine. -/
theorem Running.returns {body bottom : CallInfo} {firstResult : Nat} {ended : Thread V} {more : Int}
    (running : Running co) (last : co.ci = [body, bottom])
    (returns : Thread.poscall env.toCallEnv co.toThread firstResult = .ok (ended, more)) :
    ended.ci = [bottom] ∧ ended.gettop = co.top - firstResult ∧
      (QuietHooks env.toCallEnv →
        ended.topValues ended.gettop = co.values firstResult (co.top - firstResult)) := by
  obtain ⟨hooked, kept, -, movedEq⟩ := poscall_spec last returns
  obtain ⟨above, body', bottom', same, func, nresults, -⟩ := running.bodied
  obtain ⟨rfl, rfl, rfl⟩ : above = [] ∧ body' = body ∧ bottom' = bottom := by
    rw [last] at same
    cases above with
    | nil =>
      cases same
      exact ⟨rfl, rfl, rfl⟩
    | cons first above =>
      have := congrArg List.length same
      simp at this
  rw [func, nresults] at movedEq
  have top : ended.top = bottom'.base + (co.top - firstResult) := by
    rw [movedEq, ← kept.top]
    rfl
  have base : ended.base = bottom'.base := by rw [movedEq]; rfl
  have count : ended.gettop = co.top - firstResult := by
    rw [Thread.gettop, top, base]
    omega
  refine ⟨by rw [movedEq]; rfl, count, fun quiet => ?_⟩
  have results := moveResults_values env.toCallEnv { hooked with
    ci := [bottom'], base := bottom'.base, savedpc := bottom'.savedpc } bottom'.base firstResult (-1)
  have start : ended.top - (co.top - firstResult) = bottom'.base := by omega
  have moved : ended.top - bottom'.base = co.top - firstResult := by omega
  simp only [adjust, Int.reduceNeg, Int.reduceLT, if_true] at results
  rw [Thread.topValues, count, start, ← moved]
  refine Eq.trans ?_ (results.trans ?_)
  · rw [movedEq]
    rfl
  · rw [moved, ← kept.top]
    exact values_congr fun i low => kept.slots quiet _ (by rw [kept.top] at low; omega)

end Leave

/-! ## Steps of the system -/

section Steps

variable {env : CoEnv V} {s s' : CoSystem V} {co : Nat} {es : List (CoEvent V)}

/-- The phase of a thread that is not run, and at most waits for results. -/
theorem CoSystem.InPhase.of_waits {id : Nat} {phase : Phase V} (inPhase : s.InPhase env id phase)
    (active : id ∈ s'.ids ↔ id ∈ s.ids)
    (thread : s'.thread id = s.thread id ∨ id ∈ s.ids ∧ Waits (s.thread id) (s'.thread id)) :
    s'.InPhase env id phase := by
  cases phase with
  | running =>
    refine ⟨active.2 inPhase.1, ?_⟩
    rcases thread with same | ⟨-, waits⟩
    · rw [same]
      exact inPhase.2
    · exact inPhase.2.waits waits
  | fresh | suspended | dead =>
    have same := thread.resolve_right fun waiting => inPhase.1 waiting.1
    refine ⟨fun member => inPhase.1 (active.1 member), ?_⟩
    rw [same]
    exact inPhase.2

/-- The code of another thread leaves a coroutine in its phase. -/
theorem CoSystem.InPhase.of_outside {id : Nat} {phase : Phase V} {thread : Nat → Coroutine V} (inPhase : s.InPhase env id phase)
    (outside : OutsideCode (s.thread id) (thread id)) : ({ s with thread } : CoSystem V).InPhase env id phase := by
  cases phase with
  | fresh body =>
    obtain ⟨absent, fresh⟩ := inPhase
    obtain ⟨bottom, single, bottomBase, native⟩ := fresh.frames
    have unstarted : (s.thread id).hasFrames = false := by simp [Coroutine.hasFrames, single]
    have top := fresh.top
    refine ⟨absent, outside.status.trans fresh.status, ⟨bottom, outside.frames.trans single, ?_, native⟩, ?_, ?_, fresh.function⟩
    · exact bottomBase.trans outside.base.symm
    · exact (outside.top.trans top).trans (congrArg (· + 1) outside.base.symm)
    · simp only
      rw [outside.base, outside.slots unstarted _ (by omega)]
      exact fresh.slot
  | running =>
    obtain ⟨active, running⟩ := inPhase
    exact ⟨active, outside.status.trans running.status, outside.frames.symm ▸ running.bodied⟩
  | suspended site =>
    obtain ⟨absent, suspended⟩ := inPhase
    obtain ⟨call, ci, native, base, rest⟩ := suspended.frames
    refine ⟨absent, outside.status.trans suspended.status, ⟨call, outside.frames.trans ci, native, outside.base.trans base, rest⟩,
      suspended.bodied, suspended.wants, ?_⟩
    simp only
    rw [outside.base, outside.top]
    exact suspended.top
  | dead =>
    obtain ⟨absent, dead⟩ := inPhase
    refine ⟨absent, dead.imp outside.status.trans fun ⟨isOk, single, empty⟩ => ⟨outside.status.trans isOk, ?_, ?_⟩⟩
    · simp only
      rw [outside.frames, single]
    · simp only [Thread.gettop]
      rw [outside.base, outside.top]
      exact empty

/-- A coroutine that `auxresume` accepts is fresh or suspended. -/
theorem CoSystem.InPhase.resumable {self : Nat} {phase : Phase V} (inPhase : s.InPhase env co phase)
    (status : s.costatus self co = .suspended) :
    (∃ body, phase = .fresh body) ∨ ∃ site, phase = .suspended site := by
  cases phase with
  | fresh body => exact .inl ⟨body, rfl⟩
  | suspended site => exact .inr ⟨site, rfl⟩
  | running =>
    obtain ⟨-, running⟩ := inPhase
    have framed : (s.thread co).hasFrames = true := by
      obtain ⟨above, body, bottom, frames, -⟩ := running.bodied
      simp [Coroutine.hasFrames, frames]
    simp only [costatus, running.status, framed, if_true] at status
    split at status <;> cases status
  | dead =>
    simp only [costatus] at status
    split at status
    · cases status
    · rcases inPhase.2 with failed | ⟨isOk, single, empty⟩
      · simp [failed] at status
      · simp [isOk, Coroutine.hasFrames, single, empty] at status

/-- An active coroutine is running. -/
theorem CoSystem.InPhase.eq_running {phase : Phase V} (inPhase : s.InPhase env co phase) (active : co ∈ s.ids) :
    phase = .running := by
  cases phase with
  | running => rfl
  | fresh | suspended | dead => exact absurd active inPhase.1

/-- A coroutine that `auxresume` does not accept is running or dead. -/
theorem CoSystem.InPhase.refusable {self : Nat} {phase : Phase V} (inPhase : s.InPhase env co phase)
    (active : self ∈ s.ids) (status : s.costatus self co ≠ .suspended) : phase = .running ∨ phase = .dead := by
  have different : co ∉ s.ids → self ≠ co := fun absent same => absent (same ▸ active)
  cases phase with
  | running => exact .inl rfl
  | dead => exact .inr rfl
  | fresh body =>
    obtain ⟨absent, fresh⟩ := inPhase
    obtain ⟨bottom, single, -⟩ := fresh.frames
    refine absurd ?_ status
    have height : (s.thread co).gettop = 1 := by rw [Thread.gettop, fresh.top]; omega
    simp [costatus, different absent, fresh.status, Coroutine.hasFrames, single, height]
  | suspended site =>
    obtain ⟨absent, suspended⟩ := inPhase
    refine absurd ?_ status
    simp [costatus, different absent, suspended.status]

/-- `gafq_checkstack` leaves a dead coroutine dead. -/
theorem Dead.checked {dead : Coroutine V} {checked : Thread V} {n : Nat} (isDead : Dead dead)
    (room : dead.apiCheckstack n = some checked) : Dead { dead with toThread := checked } := by
  obtain ⟨-, top, base, ⟨f, frames⟩, -⟩ := apiCheckstack_spec room
  rcases isDead with failed | ⟨isOk, single, empty⟩
  · exact .inl failed
  · refine .inr ⟨isOk, ?_, ?_⟩
    · show checked.ci.length = 1
      rw [frames, List.length_modifyHead]
      exact single
    · show checked.top - checked.base = 0
      rw [top, base]
      exact empty

/-- A step leaves every coroutine but its own in its phase. -/
theorem CoStep.others (step : CoStep env s co es s') {id : Nat} (other : id ≠ co) {phase : Phase V}
    (inPhase : s.InPhase env id phase) : s'.InPhase env id phase := by
  -- a step that changes the thread of `co` and, as long as it waits, that of `self`
  have both : ∀ {self : Nat} {first second : Coroutine V} {active : List (Nat × Bool)},
      (id ∈ active.map Prod.fst ↔ id ∈ s.ids) → self ∈ s.ids → Waits (s.thread self) first →
      ({ (s.set self first).set co second with active } : CoSystem V).InPhase env id phase := by
    intro self first second active same member waits
    refine inPhase.of_waits same ?_
    have outer : ((s.set self first).set co second).thread id = (s.set self first).thread id :=
      CoSystem.set_thread_other _ _ other
    by_cases isSelf : id = self
    · subst isSelf
      exact .inr ⟨member, by rw [outer, CoSystem.set_thread_same]; exact waits⟩
    · exact .inl (outer.trans (CoSystem.set_thread_other _ _ isSelf))
  have single : ∀ {changed : Coroutine V} {active : List (Nat × Bool)},
      (id ∈ active.map Prod.fst ↔ id ∈ s.ids) →
      ({ s.set co changed with active } : CoSystem V).InPhase env id phase := by
    intro changed active same
    exact inPhase.of_waits same (.inl (CoSystem.set_thread_other _ _ other))
  cases step with
  | own running code outside => exact inPhase.of_outside (outside id other)
  | create function => exact inPhase.of_waits Iff.rfl (.inl (CoSystem.set_thread_other _ _ other))
  | tooManyArguments => exact inPhase
  | refuse => exact single Iff.rfl
  | overflow running created room status available passed deep =>
    exact both Iff.rfl (by simp [CoSystem.ids, running]) ((passArguments_waits passed).trans (passMessage_waits _ _))
  | enter running created room status available passed shallow resumes =>
    exact both (by simp [CoSystem.ids, other]) (by simp [CoSystem.ids, running]) (passArguments_waits passed)
  | enterFails message running created room status available passed shallow fails =>
    exact both Iff.rfl (by simp [CoSystem.ids, running]) ((passArguments_waits passed).trans (passMessage_waits _ _))
  | yield running calling native frame gafq allowed wants room =>
    exact both (by simp [CoSystem.ids, running, other]) (by simp [CoSystem.ids, running]) (passResults_waits env room)
  | yieldTooMany running => exact single (by simp [CoSystem.ids, running, other])
  | finish running last inside returns room =>
    exact both (by simp [CoSystem.ids, running, other]) (by simp [CoSystem.ids, running]) (passResults_waits env room)
  | finishTooMany running => exact single (by simp [CoSystem.ids, running, other])
  | fail message running =>
    exact both (by simp [CoSystem.ids, running, other]) (by simp [CoSystem.ids, running]) (passMessage_waits _ _)

/-- The values that a body returns fit on the stack of its resumer. -/
def ResultsFit (s : CoSystem V) (es : List (CoEvent V)) : Prop :=
  match s.active with
  | _ :: (resumer, _) :: _ => ∀ results, CoEvent.bodyReturn results ∈ es →
      (s.thread resumer).gettop + (results.length + 1) ≤ maxCStack
  | _ => True

theorem apiCheckstack_ne_none {th : Thread V} {n : Nat} (fits : th.gettop + n ≤ maxCStack) :
    th.apiCheckstack n ≠ none := by
  simp only [apiCheckstack]
  rw [if_neg (by omega)]
  split <;> simp

theorem OwnCode.running {co co' : Coroutine V} (code : OwnCode co co') (running : Running co) : Running co' := by
  obtain ⟨above, above', body, body', bottom, frames, frames', func, nresults⟩ := code.frames
  obtain ⟨above₀, body₀, bottom₀, frames₀, func₀, nresults₀, native⟩ := running.bodied
  have same := List.append_inj' (frames.symm.trans frames₀) rfl
  simp only [List.cons.injEq, and_true] at same
  obtain ⟨-, rfl, rfl⟩ := same
  exact ⟨code.status.trans running.status, above', body', bottom, frames', func.trans func₀,
    nresults.trans nresults₀, native⟩

/-- An event with which the body of a coroutine ends. -/
def CoEvent.isEnd : CoEvent V → Bool
  | .bodyReturn _ | .bodyError => true
  | _ => false

def Ends (es : List (CoEvent V)) : Prop := es.any CoEvent.isEnd = true

/-- A step of a coroutine follows the protocol. -/
theorem CoStep.exchange (step : CoStep env s co es s') (fit : ResultsFit s es) (nodup : s.ids.Nodup)
    (created : 0 < co ∧ co < s.count) {phase : Phase V} (inPhase : s.InPhase env co phase) :
    ∃ phase', s'.InPhase env co phase' ∧ (Ends es → phase' = .dead) ∧
      (QuietHooks env.toCallEnv → Exchange env phase es phase') := by
  -- the innermost active thread is not among those that wait for it
  have left : ∀ {wrapped : Bool} {rest : List (Nat × Bool)}, s.active = (co, wrapped) :: rest →
      co ∉ rest.map Prod.fst := by
    intro wrapped rest running
    rw [CoSystem.ids, running, List.map_cons, List.nodup_cons] at nodup
    exact nodup.1
  cases step with
  | own running code =>
    have active : co ∈ s.ids := by simp [CoSystem.ids, running]
    cases phase with
    | running => exact ⟨.running, ⟨active, (code (by omega)).running inPhase.2⟩, nofun, fun _ => .own⟩
    | fresh | suspended | dead => exact absurd active inPhase.1
  | create function => omega
  | tooManyArguments => exact ⟨phase, inPhase, nofun, fun _ => .refused⟩
  | refuse running _ room status =>
    rcases inPhase.refusable (by simp [CoSystem.ids, running]) status with rfl | rfl
    · refine ⟨.running, ⟨inPhase.1, ?_⟩, nofun, fun _ => .refused⟩
      rw [CoSystem.set_thread_same]
      exact inPhase.2.waits ⟨rfl, (apiCheckstack_spec room).2.2.2.1⟩
    · refine ⟨.dead, ⟨inPhase.1, ?_⟩, fun _ => rfl, fun _ => .refused⟩
      rw [CoSystem.set_thread_same]
      exact inPhase.2.checked room
  | overflow running _ room status available passed deep =>
    rcases inPhase.resumable status with ⟨body, rfl⟩ | ⟨site, rfl⟩
    · refine ⟨.dead, ⟨inPhase.1, ?_⟩, fun _ => rfl, fun _ => .startOverflow⟩
      rw [CoSystem.set_thread_same]
      exact inPhase.2.overflow room passed _
    · refine ⟨.suspended site, ⟨inPhase.1, ?_⟩, nofun, fun _ => .continueOverflow⟩
      rw [CoSystem.set_thread_same]
      exact inPhase.2.overflow room passed _
  | enter running _ room status available passed shallow resumes =>
    rcases inPhase.resumable status with ⟨body, rfl⟩ | ⟨site, rfl⟩
    · obtain ⟨isOk, function, values, runs⟩ := inPhase.2.enter room passed resumes
      refine ⟨.running, ⟨by simp [CoSystem.ids], ?_⟩, fun ends => ?_, fun _ => ?_⟩
      · show Running (((s.set _ _).set co _).thread co)
        rw [CoSystem.set_thread_same]
        exact runs
      · rw [if_pos isOk] at ends
        cases ends
      · rw [if_pos isOk, function, values]
        exact .start
    · obtain ⟨notOk, runs, values⟩ := inPhase.2.enter room passed resumes
      refine ⟨.running, ⟨by simp [CoSystem.ids], ?_⟩, fun ends => ?_, fun quiet => ?_⟩
      · show Running (((s.set _ _).set co _).thread co)
        rw [CoSystem.set_thread_same]
        exact runs
      · rw [if_neg notOk] at ends
        cases ends
      · obtain ⟨sameSite, results⟩ := values quiet
        rw [if_neg notOk]
        simp only [sameSite, results]
        exact .continue
  | enterFails message running _ room status available passed shallow fails =>
    rcases inPhase.resumable status with ⟨body, rfl⟩ | ⟨site, rfl⟩
    · refine ⟨.dead, ⟨inPhase.1, ?_⟩, fun _ => rfl, fun _ => .startFails⟩
      rw [CoSystem.set_thread_same]
      exact dead_die _ _ _
    · refine ⟨.dead, ⟨inPhase.1, ?_⟩, fun _ => rfl, fun _ => .continueFails⟩
      rw [CoSystem.set_thread_same]
      exact dead_die _ _ _
  | @yield _ _ wrap wrapped rest call caller frames checked running calling native frame gafq allowed wants room =>
    obtain rfl := inPhase.eq_running (by simp [CoSystem.ids, running])
    refine ⟨.suspended (s.thread co).callSite, ⟨left running, ?_⟩, nofun, fun _ => ?_⟩
    · show Suspended _ (((s.set _ _).set co _).thread co)
      rw [CoSystem.set_thread_same]
      have height : (s.thread co).top - (s.thread co).gettop = (s.thread co).base := by
        rw [Thread.gettop]
        omega
      exact inPhase.2.suspends calling native frame gafq wants rfl rfl height (le_refl _)
    · rw [passResults_values]
      exact .yield
  | yieldTooMany running calling native frame gafq allowed wants full =>
    obtain rfl := inPhase.eq_running (by simp [CoSystem.ids, running])
    refine ⟨.suspended (s.thread co).callSite, ⟨left running, ?_⟩, nofun, fun _ => .yieldTooMany⟩
    show Suspended _ ((s.set co _).thread co)
    rw [CoSystem.set_thread_same]
    have height : (s.thread co).top - (s.thread co).gettop = (s.thread co).base := by
      rw [Thread.gettop]
      omega
    exact inPhase.2.suspends calling native frame gafq wants rfl rfl height (Nat.sub_le ..)
  | @finish _ _ firstResult _ _ _ body bottom ended more checked running last inside returns room =>
    obtain rfl := inPhase.eq_running (by simp [CoSystem.ids, running])
    obtain ⟨ci, count, values⟩ := inPhase.2.returns last returns
    refine ⟨.dead, ⟨left running, ?_⟩, fun _ => rfl, fun quiet => ?_⟩
    · show Dead (((s.set _ _).set co _).thread co)
      rw [CoSystem.set_thread_same]
      refine .inr ⟨inPhase.2.status, ?_, ?_⟩
      · show List.length (Thread.ci _) = 1
        exact congrArg List.length ci
      · show ended.top - (ended.top - ended.base) - ended.base = 0
        omega
    · rw [passResults_values]
      have same := values quiet
      rw [← same]
      exact .finish
  | @finishTooMany _ resumer firstResult wrap wrapped rest body bottom ended more running last inside returns full =>
    obtain rfl := inPhase.eq_running (by simp [CoSystem.ids, running])
    obtain ⟨-, count, -⟩ := inPhase.2.returns last returns
    simp only [ResultsFit, running] at fit
    have fits := fit _ (List.mem_cons_self ..)
    rw [length_values, ← count] at fits
    exact absurd full (apiCheckstack_ne_none fits)
  | fail message running =>
    obtain rfl := inPhase.eq_running (by simp [CoSystem.ids, running])
    refine ⟨.dead, ⟨left running, ?_⟩, fun _ => rfl, fun _ => .fail⟩
    show Dead (((s.set _ _).set co _).thread co)
    rw [CoSystem.set_thread_same]
    exact dead_die _ _ _

end Steps

/-! ## Whole runs -/

/-- A system in which only the main thread exists. -/
def CoSystem.initial (main : Coroutine V) : CoSystem V := ⟨fun _ => main, 1, [(0, false)]⟩

/-- The chain of active threads, and a phase for every coroutine. -/
structure Orderly (env : CoEnv V) (s : CoSystem V) : Prop where
  nodup : s.ids.Nodup
  bounded : ∀ id ∈ s.ids, id < s.count
  /-- the main thread is the one that nothing has resumed -/
  bottom : ∃ upper wrap, s.active = upper ++ [(0, wrap)]
  phases : ∀ id, 0 < id → id < s.count → ∃ phase, s.InPhase env id phase

section Runs

variable {env : CoEnv V} {s s' : CoSystem V}

/-- How the chain of active threads and the number of threads develop. -/
structure Develops (env : CoEnv V) (s s' : CoSystem V) : Prop where
  nodup : s'.ids.Nodup
  bounded : ∀ id ∈ s'.ids, id < s'.count
  bottom : ∃ upper wrap, s'.active = upper ++ [(0, wrap)]
  grows : s.count ≤ s'.count
  fresh : s.count < s'.count → s'.count = s.count + 1 ∧ ∃ body, s'.InPhase env s.count (.fresh body)

theorem Develops.same (orderly : Orderly env s) (active : s'.active = s.active) (count : s'.count = s.count) :
    Develops env s s' where
  nodup := by rw [CoSystem.ids, active]; exact orderly.nodup
  bounded := by rw [CoSystem.ids, active, count]; exact orderly.bounded
  bottom := by rw [active]; exact orderly.bottom
  grows := by omega
  fresh grown := by omega

theorem Develops.left {first second : Nat × Bool} {rest : List (Nat × Bool)} (orderly : Orderly env s)
    (before : s.active = first :: second :: rest) (after : s'.active = second :: rest) (count : s'.count = s.count) :
    Develops env s s' where
  nodup := by
    have nodup := orderly.nodup
    rw [CoSystem.ids, before, List.map_cons, List.nodup_cons] at nodup
    rw [CoSystem.ids, after]
    exact nodup.2
  bounded := by
    intro id member
    rw [count]
    refine orderly.bounded id ?_
    rw [CoSystem.ids, before, List.map_cons]
    rw [CoSystem.ids, after] at member
    exact List.mem_cons_of_mem _ member
  bottom := by
    obtain ⟨upper, wrap, split⟩ := orderly.bottom
    rw [before] at split
    cases upper with
    | nil => cases split
    | cons _ upper => exact ⟨upper, wrap, after.trans (List.cons.inj split).2⟩
  grows := by omega
  fresh grown := by omega

end Runs

end Gafq
