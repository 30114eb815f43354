import Gafq.Coroutine

/-! # Calls and returns in the interpreter

The cases `OP_VARARG`, `OP_CALL`, `OP_TAILCALL` and `OP_RETURN` of `gafqV_execute` and what they do to the
stack.  `gafqF_close` is not called here: it moves values out of the stack into upvalues and changes no
slot.  A register is its distance from `L->base`, an instruction is given by its operands.
-/

namespace Gafq

variable {V : Type}

namespace Thread

variable (env : CallEnv V)

/-- `if (b != 0) L->top = position;` (else the previous instruction set the top) and `L->savedpc = pc;` -/
def setTop (th : Thread V) (pc b position : Nat) : Thread V :=
  { th with top := if b ≠ 0 then position else th.top, savedpc := pc }

/-- `OP_VARARG` in a function with the prototype `p`.  `n` is not negative: only a vararg function has this
instruction, and there the parameters have been moved behind the arguments. -/
def opVararg (th : Thread V) (p : Proto) (a b : Nat) : Thread V :=
  let ci := th.ci.headD {}
  let n := ci.base - ci.func - p.numparams.toNat - 1
  let ra := th.base + a
  let opened := if b = 0 then { th.checkstack n with top := ra + n } else th
  let wanted := if b = 0 then n else b - 1
  { opened with
    slots := fun i =>
      if ra ≤ i ∧ i < ra + wanted then
        if i - ra < n then th.slots (ci.base - n + (i - ra)) else env.nil
      else th.slots i }

/-- `OP_CALL` -/
def opCall (th : Thread V) (pc a b c : Nat) : Except CallError (PrecallResult × Thread V) := do
  let ra := th.base + a
  let nresults := (c : Int) - 1
  let called ← precall env (th.setTop pc b (ra + b)) ra nresults
  -- a C function was called by `precall`; adjust its results
  if called.1 = .c ∧ 0 ≤ nresults then .ok (.c, { called.2 with top := (called.2.ci.headD {}).top })
  else .ok called

/-- `OP_TAILCALL` after `gafqD_precall` has opened a frame: it is put in place of the one below. -/
def replaceFrame (th : Thread V) : Thread V :=
  let call := th.ci.headD {}
  let ci := th.ci.tail.headD {}
  let base := ci.func + (call.base - call.func)
  let top := ci.func + (th.top - call.func)
  { th with
    slots := fun i => if ci.func ≤ i ∧ i < top then th.slots (call.func + (i - ci.func)) else th.slots i
    base, top
    ci := { ci with base, top, savedpc := th.savedpc, tailcalls := ci.tailcalls + 1 } :: th.ci.tail.tail }

/-- `OP_TAILCALL` -/
def opTailcall (th : Thread V) (pc a b : Nat) : Except CallError (PrecallResult × Thread V) := do
  let ra := th.base + a
  let called ← precall env (th.setTop pc b (ra + b)) ra (-1)
  if called.1 = .gafq then .ok (.gafq, called.2.replaceFrame) else .ok called

/-- `gafqD_precall` for a C function, until the function is called. -/
def openC (th : Thread V) (func : Nat) (nresults : Int) : Except CallError (Thread V) := do
  let th ← (th.checkstack minStack).incCI
  let th := { th with base := func + 1 }.updateCI fun ci =>
    { ci with func, base := func + 1, top := th.top + minStack, nresults }
  if th.maskCall then callhook env .call th else .ok th

/-- `OP_RETURN`; `last` says that the function called was the one `gafqV_execute` was started for. -/
def opReturn (th : Thread V) (pc a b : Nat) (last : Bool) : Except CallError (Thread V) := do
  let ra := th.base + a
  let returned ← poscall env (th.setTop pc b (ra + b - 1)) ra
  if !last ∧ returned.2 ≠ 0 then .ok { returned.1 with top := (returned.1.ci.headD {}).top } else .ok returned.1

end Thread

/-! ## Assignments to other frames -/

/-- A slot that a program assigns to from outside of its function: `OP_SETUPVAL` does so through an upvalue that
is open there, `debug.setlocal` by the number of the register. -/
inductive Place where
  /-- a register of the function `depth` calls below the active one -/
  | register (depth r : Nat)
  /-- a slot below the functions that this call of `gafqV_execute` runs -/
  | outside (i : Nat)
deriving DecidableEq, Repr

namespace Thread

/-- The slot of a place, with `n` functions under way.  A function that has called another one has its registers
below that function. -/
def slot? (th : Thread V) (n : Nat) : Place → Option Nat
  | .register 0 r => some (th.base + r)
  | .register (depth + 1) r =>
    match th.ci[depth]?, th.ci[depth + 1]? with
    | some called, some ci => if depth + 1 < n ∧ ci.base + r < called.func then some (ci.base + r) else none
    | _, _ => none
  | .outside i =>
    match th.ci[n - 1]? with
    | some first => if i < first.func then some i else none
    | none => none

def assign (th : Thread V) (n : Nat) (place : Place) (v : V) : Option (Thread V) := (th.slot? n place).map (th.store · v)

def assignAll (th : Thread V) (n : Nat) : List (Place × V) → Option (Thread V)
  | [] => some th
  | (place, v) :: writes => (th.assign n place v).bind (·.assignAll n writes)

end Thread

/-! ## Runs of the interpreter -/

namespace CallEnv

variable (env : CallEnv V)

/-- The Gafq function `p` is what a call of `v` calls, directly or as the tag method of `v`. -/
def Calls (v : V) (p : Proto) (hole : Bool) : Prop :=
  if hole then env.function? v = none ∧ env.function? (env.callTM v) = some (.gafq p)
  else env.function? v = some (.gafq p)

/-- The C function called leaves the values `results` on its stack. -/
def Leaves (th : Thread V) (func : Nat) (nresults : Int) (results : List V) : Prop :=
  ∃ called opened returned : Thread V, ∃ n : Nat,
    (if (env.function? (th.slots func)).isNone then Thread.tryfuncTM env th func else .ok th) = .ok called ∧
    Thread.openC env (called.updateCI fun ci => { ci with savedpc := called.savedpc }) func nresults = .ok opened ∧
    env.callC (opened.slots func) opened = some (returned, (n : Int)) ∧
    results = returned.topValues n

end CallEnv

/-- A call of `gafqV_execute`: it runs, with `nexeccalls` functions under way, or has returned. -/
inductive Execution (V : Type) where
  | running (th : Thread V) (nexeccalls : Nat)
  | finished (th : Thread V)

/-- The steps of `gafqV_execute` as far as calls are concerned. -/
inductive CallLabel (V : Type) where
  /-- a register is written -/
  | set (r : Nat) (v : V)
  /-- `OP_SETUPVAL` through an upvalue that is open in another frame, here or in a metamethod or hook -/
  | assign (place : Place) (v : V)
  /-- metamethods, hooks and the collector run above the top -/
  | above
  | vararg (a b : Nat)
  /-- a Gafq function is called; `hole` when it is the tag method of the value called -/
  | call (pc a b c : Nat) (p : Proto) (hole : Bool)
  /-- a C function is called and returns; `writes` are assignments by functions that it has called, or its own -/
  | callC (pc a b c : Nat) (results : List V) (writes : List (Place × V))
  | tailcall (pc a b : Nat) (p : Proto) (hole : Bool)
  | tailcallC (pc a b : Nat) (results : List V) (writes : List (Place × V))
  | ret (pc a b : Nat)

/-- An instruction that takes its operands up to `L->top` finds the function called below it. -/
def Thread.Takes (th : Thread V) (a b : Nat) : Prop := b = 0 → th.base + a < th.top

inductive Execution.Step (env : CallEnv V) : Execution V → CallLabel V → Execution V → Prop
  | set {th : Thread V} {n r : Nat} {v : V} :
    Step env (.running th n) (.set r v) (.running (th.store (th.base + r) v) n)
  | assign {th th' : Thread V} {n : Nat} {place : Place} {v : V} (assigned : th.assign n place v = some th') :
    Step env (.running th n) (.assign place v) (.running th' n)
  | above {th : Thread V} {n : Nat} {es : List (StackEvent V)} (high : ∀ i v, StackEvent.store i v ∈ es → th.top ≤ i) :
    Step env (.running th n) .above (.running (th.events es) n)
  | vararg {th : Thread V} {n a b : Nat} {p : Proto} (current : env.function? (th.slots (th.ci.headD {}).func) = some (.gafq p)) :
    Step env (.running th n) (.vararg a b) (.running (th.opVararg env p a b) n)
  | call {th th' : Thread V} {n pc a b c : Nat} {p : Proto} {hole : Bool} (takes : th.Takes a b)
      (calls : env.Calls (th.slots (th.base + a)) p hole) (ran : th.opCall env pc a b c = .ok (.gafq, th')) :
    Step env (.running th n) (.call pc a b c p hole) (.running th' (n + 1))
  /-- below its own part of the stack, a C function changes nothing but what is assigned to -/
  | callC {th assigned th' : Thread V} {n pc a b c : Nat} {results : List V} {writes : List (Place × V)} (takes : th.Takes a b)
      (leaves : env.Leaves (th.setTop pc b (th.base + a + b)) (th.base + a) (c - 1) results)
      (ran : th.opCall env pc a b c = .ok (.c, th')) (assigns : th.assignAll n writes = some assigned)
      (below : ∀ i, i < th.base + a → th'.slots i = assigned.slots i) :
    Step env (.running th n) (.callC pc a b c results writes) (.running th' n)
  | tailcall {th th' : Thread V} {n pc a b : Nat} {p : Proto} {hole : Bool} (takes : th.Takes a b)
      (calls : env.Calls (th.slots (th.base + a)) p hole) (ran : th.opTailcall env pc a b = .ok (.gafq, th')) :
    Step env (.running th n) (.tailcall pc a b p hole) (.running th' n)
  | tailcallC {th assigned th' : Thread V} {n pc a b : Nat} {results : List V} {writes : List (Place × V)} (takes : th.Takes a b)
      (leaves : env.Leaves (th.setTop pc b (th.base + a + b)) (th.base + a) (-1) results)
      (ran : th.opTailcall env pc a b = .ok (.c, th')) (assigns : th.assignAll n writes = some assigned)
      (below : ∀ i, i < th.base + a → th'.slots i = assigned.slots i) :
    Step env (.running th n) (.tailcallC pc a b results writes) (.running th' n)
  | ret {th th' : Thread V} {n pc a b : Nat} (ran : th.opReturn env pc a b false = .ok th') :
    Step env (.running th (n + 2)) (.ret pc a b) (.running th' (n + 1))
  /-- the function that `gafqV_execute` was started for returns -/
  | last {th th' : Thread V} {pc a b : Nat} (ran : th.opReturn env pc a b true = .ok th') :
    Step env (.running th 1) (.ret pc a b) (.finished th')

end Gafq
