import Gafq.Base.Simulation
import Gafq.Object

/-! # The count hook and the line hook

`traceexec`, which `gafqV_execute` runs before an instruction, and what calls, returns and errors do to the
positions that it compares.  A position is an index into the code of a function; `L->savedpc` points behind the
instruction that is executed.  The calls that a hook makes are kept apart: there no hook is called
(`L->allowhook` is 0), but instructions are counted.
-/

namespace Gafq

/-- The bits of `L->hookmask`. -/
structure HookMask where
  call : Bool
  ret : Bool
  line : Bool
  count : Bool
deriving DecidableEq

inductive TraceEvent where
  /-- `GAFQ_HOOKCOUNT` -/
  | count
  /-- `GAFQ_HOOKLINE`, with `ar.currentline` -/
  | line (n : Int)
deriving DecidableEq

/-- A function under way. -/
structure TracedCall where
  /-- `none` for a C function -/
  proto : Option Proto
  /-- `ci->savedpc` -/
  savedpc : Nat
  /-- it has executed an instruction -/
  started : Bool
  /-- the line that the hook has been called with last for this call; no function reads it -/
  line : Option Int

/-- What a thread needs to call the two hooks. -/
structure Tracing where
  /-- `L->hook` is not `NULL` -/
  hook : Bool
  hookmask : HookMask
  basehookcount : Int
  hookcount : Int
  savedpc : Nat
  /-- the functions under way, innermost first -/
  calls : List TracedCall
  /-- while a hook runs, the functions under way that it has called -/
  hooked : Option (List TracedCall)

/-- `getline` -/
def getline (p : Proto) (pc : Nat) : Int := p.lineinfo.getD pc 0

namespace Tracing

variable (t : Tracing)

def resethookcount : Tracing := { t with hookcount := t.basehookcount }

/-- `gafq_sethook` -/
def sethook (func : Bool) (mask : HookMask) (count : Int) : Tracing :=
  -- turn off hooks?
  let off := !func || mask == ⟨false, false, false, false⟩
  resethookcount { t with
    hook := !off, basehookcount := count, hookmask := if off then ⟨false, false, false, false⟩ else mask }

/-- `gafqD_callhook` -/
def callhook (e : TraceEvent) : List TraceEvent := if t.hook && t.hooked.isNone then [e] else []

/-- `traceexec` before the instruction `npc` of the function `p` -/
def traceexec (p : Proto) (npc : Nat) : Tracing × List TraceEvent :=
  let oldpc := t.savedpc
  let counted := t.hookmask.count && t.hookcount == 0
  -- call linehook when enter a new function, when jump back (loop), or when enter a new line
  let lined := t.hookmask.line && (npc == 0 || npc + 1 ≤ oldpc || getline p npc != getline p (oldpc - 1))
  ({ t with savedpc := npc + 1, hookcount := if counted then t.basehookcount else t.hookcount },
    (if counted then t.callhook .count else []) ++ if lined then t.callhook (.line (getline p npc)) else [])

/-- What `gafqV_execute` does before it executes the instruction `npc` of the function `p`. -/
def fetch (p : Proto) (npc : Nat) : Tracing × List TraceEvent :=
  if t.hookmask.line || t.hookmask.count then
    let t := { t with hookcount := t.hookcount - 1 }
    if t.hookcount == 0 || t.hookmask.line then t.traceexec p npc else (t, [])
  else (t, [])

/-! ## Functions under way -/

/-- The innermost call is one of those that the hook has made. -/
def inHook : Bool := !(t.hooked.getD []).isEmpty

/-- The innermost call. -/
def current : Option TracedCall := if t.inHook then (t.hooked.getD []).head? else t.calls.head?

/-- Change the innermost call. -/
def mapCall (u : TracedCall → TracedCall) : Tracing :=
  if t.inHook then { t with hooked := t.hooked.map fun fs => fs.modifyHead u }
  else { t with calls := t.calls.modifyHead u }

def push (f : TracedCall) : Tracing :=
  if t.hooked.isSome then { t with hooked := t.hooked.map fun fs => f :: fs }
  else { t with calls := f :: t.calls }

def pop : Tracing :=
  if t.inHook then { t with hooked := t.hooked.map List.tail } else { t with calls := t.calls.tail }

end Tracing

/-- The lines reported. -/
def TraceEvent.report (line : Option Int) : TraceEvent → Option Int
  | .count => line
  | .line n => some n

/-- The call executes an instruction. -/
def TracedCall.reported (f : TracedCall) (events : List TraceEvent) : TracedCall :=
  { f with started := true, line := events.foldl TraceEvent.report f.line }

/-! ## Runs -/

inductive TraceLabel where
  /-- the instruction `npc` of the function `p` is executed, in a function called by a hook or not -/
  | fetch (p : Proto) (npc : Nat) (inHook : Bool) (events : List TraceEvent)
  | other

def TraceLabel.isFetch : TraceLabel → Bool
  | .fetch .. => true
  | .other => false

/-- The steps of one thread while its hooks stay as they have been set and do not yield. -/
inductive Tracing.Step : Tracing → TraceLabel → Tracing → Prop
  /-- a Gafq function begins with its first instruction; some instructions save their position -/
  | fetch {t : Tracing} {f : TracedCall} {p : Proto} {npc : Nat} {saves : Bool} (runs : t.hooked ≠ some [])
      (current : t.current = some f) (isGafq : f.proto = some p) (first : f.started = true ∨ npc = 0) :
    Step t (.fetch p npc t.inHook (t.fetch p npc).2)
      (mapCall { (t.fetch p npc).1 with savedpc := if saves then npc + 1 else (t.fetch p npc).1.savedpc }
        fun f => f.reported (t.fetch p npc).2)
  /-- a hook is called; `GCTM` clears `L->allowhook` for a `__gc` tag method too -/
  | hookCalled {t : Tracing} (allowed : t.hooked = none) : Step t .other { t with hooked := some [] }
  | hookReturned {t : Tracing} (done : t.hooked = some []) : Step t .other { t with hooked := none }
  /-- `gafqD_precall` -/
  | call {t : Tracing} {proto : Option Proto} :
    Step t .other
      { (t.mapCall fun f => { f with savedpc := t.savedpc }).push ⟨proto, 0, false, none⟩ with
        savedpc := if proto.isSome then 0 else t.savedpc }
  /-- `OP_TAILCALL` puts the function called in place of its caller -/
  | tailcall {t : Tracing} {p : Proto} (runs : t.hooked ≠ some []) :
    Step t .other { (t.mapCall fun _ => ⟨some p, 0, false, none⟩) with savedpc := 0 }
  /-- `gafqD_poscall` -/
  | ret {t : Tracing} {caller : TracedCall} (runs : t.hooked ≠ some []) (returns : t.pop.current = some caller) :
    Step t .other { t.pop with savedpc := caller.savedpc }
  /-- an error in a function called by the hook, caught there -/
  | raiseInHook {t : Tracing} {dropped rest : List TracedCall} {catcher : TracedCall} (drops : dropped ≠ [])
      (under : t.hooked = some (dropped ++ rest)) (catches : { t with hooked := some rest }.current = some catcher) :
    Step t .other { t with hooked := some rest, savedpc := catcher.savedpc }
  /-- an error caught outside of any hook: `gafqD_pcall` restores `L->allowhook` -/
  | raise {t : Tracing} {dropped rest : List TracedCall} {catcher : TracedCall} (drops : dropped ≠ [])
      (under : t.calls = dropped ++ catcher :: rest) :
    Step t .other { t with calls := catcher :: rest, hooked := none, savedpc := catcher.savedpc }
  /-- a chunk that a C function loads has an error: the C function has called nothing since, so that
  `ci->savedpc` is out of date -/
  | loadFails {t : Tracing} {f : TracedCall} {pc : Nat} (current : t.current = some f) (isC : f.proto = none) :
    Step t .other { t with savedpc := pc }
  /-- an error of a `__gc` tag method that the collector calls meanwhile, caught there as well -/
  | collectFails {t : Tracing} {f : TracedCall} {rest : List TracedCall} {pc : Nat} (under : t.calls = f :: rest)
      (isC : f.proto = none) :
    Step t .other { t with hooked := none, savedpc := pc }

end Gafq
