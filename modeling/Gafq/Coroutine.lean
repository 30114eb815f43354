import Gafq.Do

/-! # Coroutines

`gafq_resume`, `gafq_yield` and their helpers in `gdo.c`, `gafq_checkstack`, `gafq_xmove` and
`gafq_insert` of `gapi.c`, and the coroutine library of `gbaselib.c`.

A `CoSystem` holds every thread and the chain of those that are active: the innermost one runs,
each of the others has called `auxresume` and waits for the one before it, and the last one is the
main thread, number 0, of which no program holds a value it could resume.  `CoStep` has one rule for each way in and out of `auxresume`.  What the code of a
thread does between two such calls is left open, on its own stack (`OwnCode`) and to the variables and the stack
sizes of the other threads (`OutsideCode`).

The events of a step are the values that cross from one thread to the other, as they stand on the
two stacks before and after it.
-/

namespace Gafq

/-- Limit on the number of stack slots that a C function can use. -/
def maxCStack : Nat := 8000

inductive ThreadStatus where
  /-- `0` -/
  | ok
  /-- `GAFQ_YIELD` -/
  | yield
  /-- one of the error codes -/
  | error
deriving DecidableEq, Repr

structure Coroutine (V : Type) extends Thread V where
  status : ThreadStatus
  /-- number of nested C calls -/
  nCcalls : Nat
  /-- nested C calls when resuming the coroutine -/
  baseCcalls : Nat

/-- The values the coroutine library itself pushes. -/
structure CoEnv (V : Type) extends CallEnv V where
  boolean : Bool → V
  string : String → V

variable {V : Type}

/-! ## Moving values -/

namespace Thread

def gettop (th : Thread V) : Nat := th.top - th.base

/-- The `n` values from position `first` on. -/
def values (th : Thread V) (first n : Nat) : List V := (List.range n).map fun i => th.slots (first + i)

/-- The `n` values below the top. -/
def topValues (th : Thread V) (n : Nat) : List V := th.values (th.top - n) n

/-- `gafq_checkstack`, `none` when it answers 0. -/
def apiCheckstack (th : Thread V) (size : Nat) : Option (Thread V) :=
  if maxCStack < size ∨ maxCStack < th.gettop + size then none
  else if 0 < size then
    some ((th.checkstack size).updateCI fun ci => { ci with top := max ci.top (th.top + size) })
  else some th

/-- What `gafq_xmove(from, to, n)` leaves in `from`. -/
def xmoveFrom (source : Thread V) (n : Nat) : Thread V := { source with top := source.top - n }

/-- What `gafq_xmove(from, to, n)` leaves in `to`. -/
def xmoveTo (target source : Thread V) (n : Nat) : Thread V :=
  { target with
    slots := fun i =>
      if target.top ≤ i ∧ i < target.top + n then source.slots (source.top - n + (i - target.top))
      else target.slots i
    top := target.top + n }

/-- `L->top = L->ci->top`, unless the number of results was open. -/
def correctTop (th : Thread V) (more : Int) : Thread V :=
  if more ≠ 0 then { th with top := (th.ci.headD {}).top } else th

/-- `gafq_insert(L, -n)`: the value on top goes below the `n - 1` values under it. -/
def insert (th : Thread V) (n : Nat) : Thread V :=
  { th with
    slots := fun i =>
      if i = th.top - n then th.slots (th.top - 1)
      else if th.top - n < i ∧ i < th.top then th.slots (i - 1)
      else th.slots i }

end Thread

/-! ## Resuming and yielding -/

namespace Coroutine

/-- `gafqE_newthread` and its `stack_init`, with the body on the stack of the new thread. -/
def new (nil body : V) (creator : Coroutine V) : Coroutine V where
  slots := fun i => if i = 1 then body else nil
  stacksize := basicStackSize + extraStack
  stackLast := basicStackSize - 1
  top := 2
  base := 1
  savedpc := 0
  ci := [{ func := 0, base := 1, top := 1 + minStack }]
  sizeCI := basicCISize
  hook := creator.hook
  allowhook := true
  maskCall := creator.maskCall
  maskRet := creator.maskRet
  stackLast_eq := basicStack_last
  status := .ok
  nCcalls := 0
  baseCcalls := 0

/-- `gafq_getstack(co, 0, &ar) > 0` -/
def hasFrames (co : Coroutine V) : Bool := 1 < co.ci.length

/-- `resume` up to the call of `gafqV_execute`. -/
def resume (env : CallEnv V) (co : Coroutine V) (firstArg : Nat) :
    Except CallError (Thread.PrecallResult × Coroutine V) :=
  match co.status with
  | .ok => do
    -- start coroutine
    let (result, th) ← Thread.precall env co.toThread (firstArg - 1) (-1)
    .ok (result, { co with toThread := th })
  | .yield | .error =>
    if (co.ci.headD {}).isGafq then
      -- yielded inside a hook: just continue its execution
      .ok (.gafq, { co with base := (co.ci.headD {}).base, status := .ok })
    else do
      -- finish interrupted execution of `OP_CALL'
      let (th, more) ← Thread.poscall env co.toThread firstArg
      .ok (.gafq, { co with toThread := th.correctTop more, status := .ok })

/-- `gafq_resume` when `resume` has failed, or the code it ran: the thread is dead, with the error
message on top. -/
def die (co : Coroutine V) (message : V) : Coroutine V :=
  { co with
    toThread := ({ co.toThread.store co.top message with top := co.top + 1 } : Thread V).updateCI
      fun ci => { ci with top := co.top + 1 }
    status := .error, nCcalls := co.nCcalls - 1 }

/-- `resume_error`. -/
def resumeError (co : Coroutine V) (message : V) : Coroutine V :=
  { co with toThread := { co.toThread with top := (co.ci.headD {}).base }.push message }

/-- `gafq_yield`. -/
def yield (co : Coroutine V) (nresults : Nat) : Coroutine V :=
  { co with base := co.top - nresults, status := .yield }

end Coroutine

/-! ## The coroutine library -/

inductive CoStatus where
  | running | suspended | normal | dead
deriving DecidableEq, Repr

/-- `statnames`. -/
def CoStatus.name : CoStatus → String
  | .running => "running"
  | .suspended => "suspended"
  | .normal => "normal"
  | .dead => "dead"

/-- The threads and the chain of resumes that are under way. -/
structure CoSystem (V : Type) where
  thread : Nat → Coroutine V
  /-- number of threads created, the main thread included -/
  count : Nat
  /-- the active threads, innermost first, each with whether it was resumed through `auxwrap` -/
  active : List (Nat × Bool)

namespace CoSystem

def set (s : CoSystem V) (id : Nat) (co : Coroutine V) : CoSystem V :=
  { s with thread := Function.update s.thread id co }

/-- `costatus(L, co)`. -/
def costatus (s : CoSystem V) (self id : Nat) : CoStatus :=
  let co := s.thread id
  if self = id then .running
  else
    match co.status with
    | .yield => .suspended
    | .ok =>
      if co.hasFrames then .normal
      else if co.gettop = 0 then .dead
      else .suspended
    | .error => .dead

end CoSystem

/-- Where a call of `yield` stands in its coroutine: the frames under it, the slot of the function
called, and the number of results the call wants. -/
structure CallSite where
  frames : List CallInfo
  func : Nat
  wanted : Int

/-- The call that the innermost frame of a thread is executing. -/
def Coroutine.callSite (co : Coroutine V) : CallSite where
  frames := co.ci.tail
  func := (co.ci.headD {}).func
  wanted := (co.ci.headD {}).nresults

/-- What crosses between a coroutine and the thread that resumes it. -/
inductive CoEvent (V : Type) where
  /-- `auxresume` is called with these values on top of the stack of the resumer -/
  | resumeCall (args : List V)
  /-- the body is called with these arguments -/
  | bodyStart (body : V) (args : List V)
  /-- the interrupted call goes on with these results -/
  | yieldReturn (site : CallSite) (results : List V)
  /-- `yield` is called with these arguments -/
  | yieldCall (site : CallSite) (args : List V)
  /-- the body returns these values -/
  | bodyReturn (results : List V)
  | bodyError
  /-- what `resume`, or the function made by `wrap`, has on top of the stack when it returns -/
  | resumeReturn (wrap : Bool) (results : List V)
  /-- `auxresume` raises an error, or returns -1 with a message on the stack -/
  | resumeError
  /-- `auxresume` refuses, and the coroutine is not run -/
  | refused

/-- The code of an active thread works on its own stack: it can do anything to the frames above
its body, whose call it neither leaves nor moves. -/
structure OwnCode (co co' : Coroutine V) : Prop where
  status : co'.status = co.status
  frames : ∃ above above' body body' bottom, co.ci = above ++ [body, bottom] ∧
    co'.ci = above' ++ [body', bottom] ∧ body'.func = body.func ∧ body'.nresults = body.nresults

/-- What the code of the running thread can do to another one: it assigns to variables through upvalues
that are open there and by `debug.setlocal`, sets its hook, and the collector clears and resizes its
stack.  Nothing refers to a stack without frames. -/
structure OutsideCode (co co' : Coroutine V) : Prop where
  status : co'.status = co.status
  frames : co'.ci = co.ci
  base : co'.base = co.base
  top : co'.top = co.top
  nCcalls : co'.nCcalls = co.nCcalls
  baseCcalls : co'.baseCcalls = co.baseCcalls
  slots : co.hasFrames = false → ∀ i, i < co.top → co'.slots i = co.slots i

/-- The stack of the resumer when `auxresume` has moved `n` results to it: `coresume` puts `true`
below them, `auxwrap` leaves them alone. -/
def finishResume (env : CoEnv V) (wrap : Bool) (th : Thread V) (n : Nat) : Thread V :=
  if wrap then th else (th.push (env.boolean true)).insert (n + 1)

/-- The number of values that `finishResume` returns. -/
def resumeCount (wrap : Bool) (n : Nat) : Nat := if wrap then n else n + 1

section Steps

variable (env : CoEnv V)

/-- The two threads when `auxresume` has checked the stack of the coroutine and moved the
arguments to it. -/
def passArguments (resumer co : Coroutine V) (checked : Thread V) (narg : Nat) : Coroutine V × Coroutine V :=
  ({ resumer with toThread := resumer.toThread.xmoveFrom narg },
   { co with toThread := checked.xmoveTo resumer.toThread narg, nCcalls := resumer.nCcalls })

/-- `gafq_resume` before `resume` is called. -/
def enterResume (co : Coroutine V) : Coroutine V :=
  { co with nCcalls := co.nCcalls + 1, baseCcalls := co.nCcalls + 1 }

/-- `gafq_xmove(co, L, n)` and the end of `coresume` or `auxwrap`. -/
def passResults (resumer co : Coroutine V) (checked : Thread V) (n : Nat) (wrap : Bool) :
    Coroutine V × Coroutine V :=
  ({ resumer with toThread := finishResume env wrap (checked.xmoveTo co.toThread n) n },
   { co with toThread := co.toThread.xmoveFrom n, nCcalls := co.nCcalls - 1 })

/-- `gafq_xmove(co, L, 1)`: the error message goes to the resumer. -/
def passMessage (resumer co : Coroutine V) : Coroutine V × Coroutine V :=
  ({ resumer with toThread := resumer.toThread.xmoveTo co.toThread 1 },
   { co with toThread := co.toThread.xmoveFrom 1 })

/-- One move of the system, with the thread whose conversation it belongs to and the values that
cross. -/
inductive CoStep : CoSystem V → Nat → List (CoEvent V) → CoSystem V → Prop
  /-- the running thread works on its own stack and from outside on the others; the main thread can do
  so without a body -/
  | own {s : CoSystem V} {self : Nat} {wrap : Bool} {rest : List (Nat × Bool)} {thread : Nat → Coroutine V}
      (running : s.active = (self, wrap) :: rest) (code : self ≠ 0 → OwnCode (s.thread self) (thread self))
      (outside : ∀ other, other ≠ self → OutsideCode (s.thread other) (thread other)) :
      CoStep s self [] { s with thread }
  /-- `gafqB_cocreate`, which accepts only Gafq functions -/
  | create {s : CoSystem V} {self : Nat} {wrap : Bool} {rest : List (Nat × Bool)} {body : V} {p : Proto}
      (running : s.active = (self, wrap) :: rest) (function : env.function? body = some (.gafq p)) :
      CoStep s s.count [] { s.set s.count (.new env.nil body (s.thread self)) with count := s.count + 1 }
  /-- the stack of the coroutine cannot take the arguments: an error in the resumer -/
  | tooManyArguments {s : CoSystem V} {self co narg : Nat} {wrap : Bool} {rest : List (Nat × Bool)}
      (running : s.active = (self, wrap) :: rest) (created : 0 < co ∧ co < s.count)
      (full : (s.thread co).apiCheckstack narg = none) : CoStep s co [.refused] s
  /-- the coroutine is not suspended; the message about it is pushed by the resumer's own code -/
  | refuse {s : CoSystem V} {self co narg : Nat} {wrap : Bool} {rest : List (Nat × Bool)} {checked : Thread V}
      (running : s.active = (self, wrap) :: rest) (created : 0 < co ∧ co < s.count)
      (room : (s.thread co).apiCheckstack narg = some checked)
      (status : s.costatus self co ≠ .suspended) :
      CoStep s co [.refused] (s.set co { s.thread co with toThread := checked })
  /-- too many nested C calls: `resume_error` -/
  | overflow {s : CoSystem V} {self co narg : Nat} {wrap : Bool} {rest : List (Nat × Bool)} {checked : Thread V}
      {resumer resumed : Coroutine V}
      (running : s.active = (self, wrap) :: rest) (created : 0 < co ∧ co < s.count)
      (room : (s.thread co).apiCheckstack narg = some checked)
      (status : s.costatus self co = .suspended) (available : (s.thread self).base + narg ≤ (s.thread self).top)
      (passed : passArguments (s.thread self) (s.thread co) checked narg = (resumer, resumed))
      (deep : maxCCalls ≤ resumed.nCcalls) :
      CoStep s co [.resumeCall ((s.thread self).topValues narg), .resumeError]
        ((s.set self (passMessage resumer (resumed.resumeError (env.string "C stack overflow"))).1).set co
          (passMessage resumer (resumed.resumeError (env.string "C stack overflow"))).2)
  /-- the coroutine goes on: its body is called, or the `yield` it waits in returns -/
  | enter {s : CoSystem V} {self co narg : Nat} {wrap wrapped : Bool} {rest : List (Nat × Bool)}
      {checked : Thread V} {resumer resumed resumed' : Coroutine V}
      (running : s.active = (self, wrap) :: rest) (created : 0 < co ∧ co < s.count)
      (room : (s.thread co).apiCheckstack narg = some checked)
      (status : s.costatus self co = .suspended) (available : (s.thread self).base + narg ≤ (s.thread self).top)
      (passed : passArguments (s.thread self) (s.thread co) checked narg = (resumer, resumed))
      (shallow : resumed.nCcalls < maxCCalls)
      (resumes : (enterResume resumed).resume env.toCallEnv (resumed.top - narg) = .ok (.gafq, resumed')) :
      CoStep s co
        [.resumeCall ((s.thread self).topValues narg),
          if resumed.status = .ok then
            .bodyStart (resumed.slots (resumed.top - narg - 1)) (resumed.topValues narg)
          else
            let call := resumed.ci.headD {}
            .yieldReturn ⟨resumed'.ci, call.func, call.nresults⟩
              (resumed'.values call.func
                (if call.nresults < 0 then resumed'.top - call.func else call.nresults.toNat))]
        { (s.set self resumer).set co resumed' with active := (co, wrapped) :: s.active }
  /-- the call of the body fails, or the return from `yield` does (a hook raises an error) -/
  | enterFails {s : CoSystem V} {self co narg : Nat} {wrap : Bool} {rest : List (Nat × Bool)}
      {checked : Thread V} {resumer resumed : Coroutine V} {e : CallError} (message : V)
      (running : s.active = (self, wrap) :: rest) (created : 0 < co ∧ co < s.count)
      (room : (s.thread co).apiCheckstack narg = some checked)
      (status : s.costatus self co = .suspended) (available : (s.thread self).base + narg ≤ (s.thread self).top)
      (passed : passArguments (s.thread self) (s.thread co) checked narg = (resumer, resumed))
      (shallow : resumed.nCcalls < maxCCalls)
      (fails : (enterResume resumed).resume env.toCallEnv (resumed.top - narg) = .error e) :
      CoStep s co [.resumeCall ((s.thread self).topValues narg), .bodyError, .resumeError]
        ((s.set self (passMessage resumer ((enterResume resumed).die message)).1).set co
          (passMessage resumer ((enterResume resumed).die message)).2)
  /-- `gafqB_yield`, called by `OP_CALL` or `OP_TAILCALL` of a Gafq function with `C - 1` as the
  number of results; the values go to the resumer -/
  | yield {s : CoSystem V} {co resumer : Nat} {wrap wrapped : Bool} {rest : List (Nat × Bool)}
      {call caller : CallInfo} {frames : List CallInfo} {checked : Thread V}
      (running : s.active = (co, wrapped) :: (resumer, wrap) :: rest)
      (calling : (s.thread co).ci = call :: caller :: frames) (native : call.isGafq = false)
      (frame : (s.thread co).base = call.func + 1 ∧ call.base = call.func + 1 ∧ call.func < (s.thread co).top)
      (gafq : caller.isGafq = true) (allowed : (s.thread co).nCcalls ≤ (s.thread co).baseCcalls)
      (wants : -1 ≤ call.nresults)
      (room : (s.thread resumer).apiCheckstack ((s.thread co).gettop + 1) = some checked) :
      CoStep s co
        [.yieldCall (s.thread co).callSite ((s.thread co).topValues (s.thread co).gettop),
          .resumeReturn wrapped
            ((passResults env (s.thread resumer) ((s.thread co).yield (s.thread co).gettop) checked
              (s.thread co).gettop wrapped).1.topValues (resumeCount wrapped (s.thread co).gettop))]
        { (s.set resumer (passResults env (s.thread resumer) ((s.thread co).yield (s.thread co).gettop) checked
              (s.thread co).gettop wrapped).1).set co
            (passResults env (s.thread resumer) ((s.thread co).yield (s.thread co).gettop) checked
              (s.thread co).gettop wrapped).2 with active := (resumer, wrap) :: rest }
  /-- as before, but the resumer cannot take the values: an error in it -/
  | yieldTooMany {s : CoSystem V} {co resumer : Nat} {wrap wrapped : Bool} {rest : List (Nat × Bool)}
      {call caller : CallInfo} {frames : List CallInfo}
      (running : s.active = (co, wrapped) :: (resumer, wrap) :: rest)
      (calling : (s.thread co).ci = call :: caller :: frames) (native : call.isGafq = false)
      (frame : (s.thread co).base = call.func + 1 ∧ call.base = call.func + 1 ∧ call.func < (s.thread co).top)
      (gafq : caller.isGafq = true) (allowed : (s.thread co).nCcalls ≤ (s.thread co).baseCcalls)
      (wants : -1 ≤ call.nresults)
      (full : (s.thread resumer).apiCheckstack ((s.thread co).gettop + 1) = none) :
      CoStep s co
        [.yieldCall (s.thread co).callSite ((s.thread co).topValues (s.thread co).gettop), .resumeError]
        { s.set co { (s.thread co).yield (s.thread co).gettop with nCcalls := (s.thread co).nCcalls - 1 } with
          active := (resumer, wrap) :: rest }
  /-- the body returns, and its values go to the resumer -/
  | finish {s : CoSystem V} {co resumer firstResult : Nat} {wrap wrapped : Bool} {rest : List (Nat × Bool)}
      {body bottom : CallInfo} {ended : Thread V} {more : Int} {checked : Thread V}
      (running : s.active = (co, wrapped) :: (resumer, wrap) :: rest)
      (last : (s.thread co).ci = [body, bottom]) (inside : firstResult ≤ (s.thread co).top)
      (returns : Thread.poscall env.toCallEnv (s.thread co).toThread firstResult = .ok (ended, more))
      (room : (s.thread resumer).apiCheckstack (ended.gettop + 1) = some checked) :
      CoStep s co
        [.bodyReturn ((s.thread co).values firstResult ((s.thread co).top - firstResult)),
          .resumeReturn wrapped
            ((passResults env (s.thread resumer) { s.thread co with toThread := ended } checked ended.gettop
              wrapped).1.topValues (resumeCount wrapped ended.gettop))]
        { (s.set resumer (passResults env (s.thread resumer) { s.thread co with toThread := ended } checked
              ended.gettop wrapped).1).set co
            (passResults env (s.thread resumer) { s.thread co with toThread := ended } checked
              ended.gettop wrapped).2 with active := (resumer, wrap) :: rest }
  /-- as before, but the resumer cannot take the values -/
  | finishTooMany {s : CoSystem V} {co resumer firstResult : Nat} {wrap wrapped : Bool} {rest : List (Nat × Bool)}
      {body bottom : CallInfo} {ended : Thread V} {more : Int}
      (running : s.active = (co, wrapped) :: (resumer, wrap) :: rest)
      (last : (s.thread co).ci = [body, bottom]) (inside : firstResult ≤ (s.thread co).top)
      (returns : Thread.poscall env.toCallEnv (s.thread co).toThread firstResult = .ok (ended, more))
      (full : (s.thread resumer).apiCheckstack (ended.gettop + 1) = none) :
      CoStep s co
        [.bodyReturn ((s.thread co).values firstResult ((s.thread co).top - firstResult)), .resumeError]
        { s.set co { s.thread co with toThread := ended, nCcalls := (s.thread co).nCcalls - 1 } with
          active := (resumer, wrap) :: rest }
  /-- an error that nothing in the coroutine catches -/
  | fail {s : CoSystem V} {co resumer : Nat} {wrap wrapped : Bool} {rest : List (Nat × Bool)} (message : V)
      (running : s.active = (co, wrapped) :: (resumer, wrap) :: rest) :
      CoStep s co [.bodyError, .resumeError]
        { (s.set resumer (passMessage (s.thread resumer) ((s.thread co).die message)).1).set co
            (passMessage (s.thread resumer) ((s.thread co).die message)).2 with active := (resumer, wrap) :: rest }

end Steps

end Gafq
