import Gafq.Object

/-! # Stack and call structure

`gdo.c` and the parts of `gstate.h` and `ggc.c` that change the size of a stack.  A position in
the stack is its offset from `L->stack`, so `savestack`, `restorestack` and `correctstack` are
identities here.  The allocated slots are `0 .. stacksize - 1`; `slots` also gives contents to
positions outside them, which a correct program never touches.  Allocation always succeeds.
-/

namespace Gafq

/-- Extra stack space to handle metamethod calls and some other extras. -/
def extraStack : Nat := 5

/-- Minimum stack available to a C function. -/
def minStack : Nat := 20

def basicStackSize : Nat := 2 * minStack
def basicCISize : Nat := 8

theorem basicStack_last : basicStackSize - 1 + extraStack + 1 = basicStackSize + extraStack := rfl

/-- Limit on the number of nested calls. -/
def maxCalls : Nat := 20000

structure CallInfo where
  base : Nat := 0
  func : Nat := 0
  top : Nat := 0
  savedpc : Nat := 0
  nresults : Int := 0
  tailcalls : Nat := 0
  /-- `f_isGafq(ci)` -/
  isGafq : Bool := false
deriving DecidableEq, Repr, Inhabited

/-- The fields of `gafq_State` that calls work on. -/
structure Thread (V : Type) where
  slots : Nat → V
  stacksize : Nat
  /-- last free slot -/
  stackLast : Nat
  top : Nat
  base : Nat
  savedpc : Nat
  /-- `base_ci .. ci`, innermost first -/
  ci : List CallInfo
  sizeCI : Nat
  hook : Bool
  allowhook : Bool
  /-- `hookmask & GAFQ_MASKCALL` -/
  maskCall : Bool
  /-- `hookmask & GAFQ_MASKRET` -/
  maskRet : Bool
  /-- asserted at the start of `gafqD_reallocstack` -/
  stackLast_eq : stackLast + extraStack + 1 = stacksize

variable {V : Type}

namespace Thread

def store (th : Thread V) (i : Nat) (v : V) : Thread V := { th with slots := Function.update th.slots i v }

/-- `setobj(L->top++, v)`. -/
def push (th : Thread V) (v : V) : Thread V := { th.store th.top v with top := th.top + 1 }

/-- Change the current `CallInfo`. -/
def updateCI (th : Thread V) (f : CallInfo → CallInfo) : Thread V :=
  { th with ci := th.ci.modifyHead f }

/-! ## Sizes -/

def reallocstack (th : Thread V) (newsize : Nat) : Thread V :=
  { th with stacksize := newsize + 1 + extraStack, stackLast := newsize, stackLast_eq := by omega }

def growstack (th : Thread V) (n : Nat) : Thread V :=
  if n ≤ th.stacksize then th.reallocstack (2 * th.stacksize) else th.reallocstack (th.stacksize + n)

/-- `gafqD_checkstack`; the difference of the two pointers is signed. -/
def checkstack (th : Thread V) (n : Nat) : Thread V :=
  if (th.stackLast : Int) - th.top ≤ n then th.growstack n else th

def incrTop (th : Thread V) : Thread V :=
  let th := th.checkstack 1
  { th with top := th.top + 1 }

def reallocCI (th : Thread V) (newsize : Nat) : Thread V := { th with sizeCI := newsize }

/-- `lim` in `traversestack`. -/
def stackLimit (th : Thread V) : Nat := th.ci.foldr (fun ci lim => max lim ci.top) th.top

/-- `checkstacksizes` of `ggc.c`, which the collector calls for each thread it traverses. -/
def checkstacksizes (th : Thread V) (limit : Nat) : Thread V :=
  if maxCalls < th.sizeCI then th
  else
    let th' := if 4 * (th.ci.length - 1) < th.sizeCI ∧ 2 * basicCISize < th.sizeCI
      then th.reallocCI (th.sizeCI / 2) else th
    if 4 * limit < th'.stacksize ∧ 2 * (basicStackSize + extraStack) < th'.stacksize
      then th'.reallocstack (th'.stacksize / 2) else th'

end Thread

/-! ## Code that runs on top of a frame -/

/-- What a hook, a finalizer or a collector step can do to the stack that it runs on top of; the
frames it opens and closes again are counted in `above`. -/
inductive StackEvent (V : Type) where
  /-- `gafqD_checkstack(L, n)` with `L->top` raised by `above` -/
  | check (above n : Nat)
  /-- a traversal of the thread, the innermost of whose frames ends `above` slots higher -/
  | collect (above : Nat)
  | store (i : Nat) (v : V)
  | sethook (hook maskCall maskRet : Bool)

namespace Thread

def event (th : Thread V) : StackEvent V → Thread V
  | .check above n =>
    let raised := ({ th with top := th.top + above } : Thread V).checkstack n
    { raised with top := th.top }
  | .collect above => th.checkstacksizes (th.stackLimit + above)
  | .store i v => th.store i v
  | .sethook hook maskCall maskRet => { th with hook, maskCall, maskRet }

def events (th : Thread V) (es : List (StackEvent V)) : Thread V := es.foldl event th

end Thread

inductive CallError where
  /-- attempt to call a value that is not callable -/
  | typeError
  | stackOverflow
  /-- error while handling an overflow -/
  | errErr
  /-- raised by a hook or by a C function -/
  | raised
deriving DecidableEq, Repr

inductive HookEvent where
  | call | ret | tailret
deriving DecidableEq, Repr

inductive Callee where
  | gafq (p : Proto)
  | c

/-- The values and the code that `gafqD_precall` meets. -/
structure CallEnv (V : Type) where
  nil : V
  /-- `ttisfunction`, and `clvalue` for a function -/
  function? : V → Option Callee
  /-- `gafqT_gettmbyobj(L, func, TM_CALL)` -/
  callTM : V → V
  /-- an `arg` table with the given extra arguments and their number in `n` -/
  argTable : List V → V
  /-- what the hook does, `none` when it raises an error -/
  hook : HookEvent → Thread V → Option (List (StackEvent V))
  /-- what the collector does when `gafqC_checkGC` runs it -/
  collector : Thread V → List (StackEvent V)
  /-- a C function with its frame open; the result is negative when it yields -/
  callC : V → Thread V → Option (Thread V × Int)

namespace Thread

variable (env : CallEnv V)

/-! ## Entering a function -/

def growCI (th : Thread V) : Except CallError (Thread V) :=
  if maxCalls < th.sizeCI then .error .errErr
  else
    let th := th.reallocCI (2 * th.sizeCI)
    if maxCalls < th.sizeCI then .error .stackOverflow else .ok th

/-- `inc_ci`: room for one more `CallInfo`, and the step to it. -/
def incCI (th : Thread V) : Except CallError (Thread V) :=
  let room := if th.ci.length = th.sizeCI then th.growCI else .ok th
  room.map fun th => { th with ci := {} :: th.ci }

/-- `gafqD_callhook` until the hook is called. -/
def openHook (th : Thread V) : Thread V :=
  let th := { th.checkstack minStack with allowhook := false }
  th.updateCI fun ci => { ci with top := th.top + minStack }

/-- `gafqD_callhook` after the hook has returned. -/
def closeHook (th : Thread V) (top ciTop : Nat) : Thread V :=
  { th with allowhook := true, top }.updateCI fun ci => { ci with top := ciTop }

def callhook (e : HookEvent) (th : Thread V) : Except CallError (Thread V) :=
  if th.hook ∧ th.allowhook then
    match env.hook e th.openHook with
    | none => .error .raised
    | some es => .ok ((th.openHook.events es).closeHook th.top (th.ci.headD {}).top)
  else .ok th

/-- The loop that completes the missing fixed arguments. -/
def pushNils (th : Thread V) : Nat → Thread V
  | 0 => th
  | n + 1 => pushNils (th.push env.nil) n

/-- The loop that moves the fixed parameters `fixed + i ..` to their final position. -/
def moveFixed (th : Thread V) (source : Nat) : Nat → Thread V
  | 0 => th
  | n + 1 => moveFixed ((th.push (th.slots source)).store source env.nil) (source + 1) n

/-- `adjust_varargs`, with the base it returns. -/
def adjustVarargs (th : Thread V) (p : Proto) (actual : Nat) : Thread V × Nat :=
  let nfixargs := p.numparams.toNat
  let th := pushNils env th (nfixargs - actual)
  let actual := max actual nfixargs
  let nvar := actual - nfixargs
  -- compatibility with old-style vararg
  let needsArg := p.varargFlag varargNeedsArg
  let th := if needsArg then (th.events (env.collector th)).checkstack p.maxstacksize.toNat else th
  let htab := env.argTable ((List.range nvar).map fun i => th.slots (th.top - nvar + i))
  let base := th.top
  let th := moveFixed env th (th.top - actual) nfixargs
  (if needsArg then th.push htab else th, base)

/-- The loop that closes the gap between `L->top` and `ci->top`. -/
def clearUpTo (th : Thread V) (limit : Nat) : Thread V :=
  { th with slots := fun i => if th.top ≤ i ∧ i < limit then env.nil else th.slots i }

/-- `gafqD_precall` for a Gafq function, up to the assertion on the new frame. -/
def enterGafq (th : Thread V) (func : Nat) (p : Proto) : Except CallError (Thread V) := do
  let th := th.checkstack p.maxstacksize.toNat
  let (th, base) :=
    if p.isVararg = 0 then
      let base := func + 1
      (if base + p.numparams.toNat < th.top then { th with top := base + p.numparams.toNat } else th, base)
    else adjustVarargs env th p (th.top - func - 1)
  let th ← th.incCI
  .ok ({ th with base }.updateCI fun ci =>
    { ci with func, base, top := base + p.maxstacksize.toNat, isGafq := true })

/-- The frame of a Gafq function with its registers cleared. -/
def prepareGafq (th : Thread V) (nresults : Int) : Thread V :=
  let ciTop := (th.ci.headD {}).top
  let th := clearUpTo env th ciTop
  { th with savedpc := 0, top := ciTop }.updateCI fun ci => { ci with tailcalls := 0, nresults }

/-- The rest of `gafqD_precall` for a Gafq function: the registers are cleared and the hook runs. -/
def startGafq (th : Thread V) (nresults : Int) : Except CallError (Thread V) :=
  let th := prepareGafq env th nresults
  if th.maskCall then
    -- hooks assume 'pc' is already incremented
    (callhook env .call { th with savedpc := th.savedpc + 1 }).map fun th => { th with savedpc := th.savedpc - 1 }
  else .ok th

/-- `tryfuncTM`: open a hole at `func` and put the tag method there. -/
def tryfuncTM (th : Thread V) (func : Nat) : Except CallError (Thread V) :=
  let tm := env.callTM (th.slots func)
  if (env.function? tm).isNone then .error .typeError
  else
    let th := { th with slots := fun i => if func < i ∧ i ≤ th.top then th.slots (i - 1) else th.slots i }
    let th := th.incrTop
    .ok (th.store func tm)

/-! ## Leaving a function -/

/-- The loop of `callrethooks` over the tail calls that a frame has made. -/
def callTailHooks (th : Thread V) : Nat → Except CallError (Thread V)
  | 0 => .ok th
  | n + 1 =>
    if th.maskRet then do
      let th := th.updateCI fun ci => { ci with tailcalls := ci.tailcalls - 1 }
      let th ← callhook env .tailret th
      callTailHooks th n
    else .ok th

def callrethooks (th : Thread V) : Except CallError (Thread V) := do
  let th ← callhook env .ret th
  let ci := th.ci.headD {}
  if ci.isGafq then callTailHooks env th ci.tailcalls else .ok th

/-- The loops that move `wanted` results to `res`, all of them when `wanted` is negative. -/
def moveResults (th : Thread V) (res first : Nat) (wanted : Int) : Thread V :=
  let available := th.top - first
  let moved := if wanted < 0 then available else min available wanted.toNat
  let final := if wanted < 0 then res + available else res + wanted.toNat
  { th with
    slots := fun i =>
      if res ≤ i ∧ i < res + moved then th.slots (first + (i - res))
      else if res + moved ≤ i ∧ i < final then env.nil else th.slots i
    top := final }

def poscall (th : Thread V) (firstResult : Nat) : Except CallError (Thread V × Int) := do
  let th ← if th.maskRet then callrethooks env th else .ok th
  let ci := th.ci.headD {}
  let caller := th.ci.tail.headD {}
  let th := { th with ci := th.ci.tail, base := caller.base, savedpc := caller.savedpc }
  .ok (moveResults env th ci.func firstResult ci.nresults, ci.nresults + 1)

/-! ## The call -/

inductive PrecallResult where
  /-- initiated a call to a Gafq function -/
  | gafq
  /-- did a call to a C function -/
  | c
  /-- C function yielded -/
  | yield
deriving DecidableEq, Repr

/-- `gafqD_precall` for a C function. -/
def callCFunction (th : Thread V) (func : Nat) (nresults : Int) :
    Except CallError (PrecallResult × Thread V) := do
  let th := th.checkstack minStack
  let th ← th.incCI
  let th := { th with base := func + 1 }.updateCI fun ci =>
    { ci with func, base := func + 1, top := th.top + minStack, nresults }
  let th ← if th.maskCall then callhook env .call th else .ok th
  match env.callC (th.slots func) th with
  | none => .error .raised
  | some (th, n) =>
    if n < 0 then .ok (.yield, th)
    else do
      let (th, _) ← poscall env th (th.top - n.toNat)
      .ok (.c, th)

/-- `gafqD_precall`. -/
def precall (th : Thread V) (func : Nat) (nresults : Int) : Except CallError (PrecallResult × Thread V) := do
  let th ← if (env.function? (th.slots func)).isNone then tryfuncTM env th func else .ok th
  let th' := th.updateCI fun ci => { ci with savedpc := th.savedpc }
  match env.function? (th.slots func) with
  | some (.gafq p) => do
    let entered ← enterGafq env th' func p
    let started ← startGafq env entered nresults
    .ok (.gafq, started)
  | some .c | none => callCFunction env th' func nresults

end Thread

end Gafq
