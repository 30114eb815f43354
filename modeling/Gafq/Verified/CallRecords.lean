import Gafq.Base.Simulation
import Gafq.Calls
import Gafq.Verified.CallResults

/-! # Activation records

What calls are for, without the stack they are laid out on: each function under way has registers and extra
arguments of its own.  A register holds a value or `none`, when the program cannot rely on what is there; a
call makes so of the registers from the function called on, which the function called may use.
-/

namespace Gafq

variable {V : Type}

structure Record (V : Type) where
  proto : Proto
  /-- the extra arguments of a vararg function -/
  varargs : List (Option V)
  regs : Nat → Option V
  /-- the first register above the top -/
  limit : Nat
  /-- the number of results its caller wants, all of them when negative -/
  nresults : Int
  /-- where the function goes on, when it has called another one -/
  resume : Nat
  /-- where the results of the function it has called go -/
  register : Nat

namespace Record

variable (env : CallEnv V)

/-- A function called with `args`. -/
def start (p : Proto) (args : List (Option V)) (nresults : Int) : Record V where
  proto := p
  varargs := if p.isVararg = 0 then [] else args.drop p.numparams.toNat
  regs i :=
    if p.maxstacksize.toNat ≤ i then none
    else if i < p.numparams.toNat then args.getD i (some env.nil)
    else if i = p.numparams.toNat ∧ p.isVararg ≠ 0 ∧ p.varargFlag varargNeedsArg then
      ((args.drop p.numparams.toNat).mapM id).map env.argTable
    else some env.nil
  limit := p.maxstacksize.toNat
  nresults
  resume := 0
  register := 0

/-- The `n` registers from `first` on. -/
def values (r : Record V) (first n : Nat) : List (Option V) := (List.range n).map fun i => r.regs (first + i)

/-- The values from register `a` on are `vs`, and nothing is known above. -/
def put (r : Record V) (a : Nat) (vs : List (Option V)) : Nat → Option V :=
  fun i => if i < a then r.regs i else (vs[i - a]?).join

/-- A register is written; above the limit the program cannot rely on it. -/
def set (r : Record V) (i : Nat) (v : V) : Record V :=
  if i < r.limit then { r with regs := Function.update r.regs i (some v) } else r

/-- `OP_VARARG`: the extra arguments, all of them or cut and completed to `b - 1` values. -/
def expand (r : Record V) (a b : Nat) : Record V :=
  if b = 0 then { r with regs := r.put a r.varargs, limit := a + r.varargs.length }
  else
    { r with
      regs := fun i =>
        if a ≤ i ∧ i < a + (b - 1) then if i < r.limit then r.varargs.getD (i - a) (some env.nil) else none
        else r.regs i }

/-- The values that a call passes; the value called is one of them when its tag method is called. -/
def arguments (r : Record V) (a b : Nat) (hole : Bool) : List (Option V) :=
  (if hole then [r.regs a] else []) ++ r.values (a + 1) (if b = 0 then r.limit - (a + 1) else b - 1)

/-- The values that `OP_RETURN` returns. -/
def results (r : Record V) (a b : Nat) : List (Option V) := r.values a (if b = 0 then r.limit - a else b - 1)

/-- The function has called another one at register `a`. -/
def suspend (r : Record V) (pc a : Nat) : Record V :=
  { r with regs := fun i => if i < a then r.regs i else none, resume := pc, register := a }

/-- The function called has returned; `wanted` is what was asked for. -/
def receive (r : Record V) (a : Nat) (wanted : Int) (vs : List (Option V)) : Record V :=
  let adjusted := Thread.adjust (some env.nil) wanted vs
  let limit := if wanted < 0 then a + adjusted.length else r.proto.maxstacksize.toNat
  { r with regs := fun i => if i < limit then r.put a adjusted i else none, limit }

end Record

/-- The functions under way, and the part of the stack below them. -/
structure RecordStack (V : Type) where
  below : Nat → V
  active : Record V
  callers : List (Record V)

/-- A register of a function that has called another one is assigned to. -/
def Record.assign (r : Record V) (i : Nat) (v : V) : Record V :=
  if i < r.register then { r with regs := Function.update r.regs i (some v) } else r

namespace RecordStack

def assign (s : RecordStack V) (v : V) : Place → RecordStack V
  | .register 0 r => { s with active := s.active.set r v }
  | .register (depth + 1) r => { s with callers := s.callers.modify depth (·.assign r v) }
  | .outside i => { s with below := Function.update s.below i v }

def assignAll (s : RecordStack V) (writes : List (Place × V)) : RecordStack V := writes.foldl (fun s w => s.assign w.2 w.1) s

/-- The active function has got results of a C function at register `a`. -/
def receive (env : CallEnv V) (s : RecordStack V) (a : Nat) (wanted : Int) (results : List V) : RecordStack V :=
  { s with active := s.active.receive env a wanted (results.map some) }

end RecordStack

/-- The functions under way, or the values returned to the caller of them all. -/
inductive Records (V : Type) where
  | running (s : RecordStack V)
  | finished (below : Nat → V) (results : List (Option V))

/-- The Gafq function `p` is what a call of this register calls, as far as its value is known. -/
def CallEnv.MayCall (env : CallEnv V) (value : Option V) (p : Proto) (hole : Bool) : Prop := ∀ v, value = some v → env.Calls v p hole

inductive Records.Step (env : CallEnv V) : Records V → CallLabel V → Records V → Prop
  | set {s : RecordStack V} {r : Nat} {v : V} : Step env (.running s) (.set r v) (.running { s with active := s.active.set r v })
  | assign {s : RecordStack V} {place : Place} {v : V} : Step env (.running s) (.assign place v) (.running (s.assign v place))
  | above {s : RecordStack V} : Step env (.running s) .above (.running s)
  | vararg {s : RecordStack V} {a b : Nat} :
    Step env (.running s) (.vararg a b) (.running { s with active := s.active.expand env a b })
  | call {s : RecordStack V} {pc a b c : Nat} {p : Proto} {hole : Bool} (calls : env.MayCall (s.active.regs a) p hole) :
    Step env (.running s) (.call pc a b c p hole)
      (.running ⟨s.below, .start env p (s.active.arguments a b hole) (c - 1), s.active.suspend pc a :: s.callers⟩)
  | callC {s : RecordStack V} {pc a b c : Nat} {results : List V} {writes : List (Place × V)} :
    Step env (.running s) (.callC pc a b c results writes) (.running ((s.assignAll writes).receive env a (c - 1) results))
  /-- the function called takes the place of the active one -/
  | tailcall {s : RecordStack V} {pc a b : Nat} {p : Proto} {hole : Bool} (calls : env.MayCall (s.active.regs a) p hole) :
    Step env (.running s) (.tailcall pc a b p hole)
      (.running { s with active := .start env p (s.active.arguments a b hole) s.active.nresults })
  | tailcallC {s : RecordStack V} {pc a b : Nat} {results : List V} {writes : List (Place × V)} :
    Step env (.running s) (.tailcallC pc a b results writes) (.running ((s.assignAll writes).receive env a (-1) results))
  | ret {below : Nat → V} {active caller : Record V} {callers : List (Record V)} {pc a b : Nat} :
    Step env (.running ⟨below, active, caller :: callers⟩) (.ret pc a b)
      (.running ⟨below, caller.receive env caller.register active.nresults (active.results a b), callers⟩)
  | last {below : Nat → V} {active : Record V} {pc a b : Nat} :
    Step env (.running ⟨below, active, []⟩) (.ret pc a b)
      (.finished below (Thread.adjust (some env.nil) active.nresults (active.results a b)))

end Gafq
