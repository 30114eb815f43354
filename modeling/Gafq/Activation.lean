import Gafq.VM

/-! # The top of the stack between instructions

How the loop of `gafqV_execute` moves `L->top`.  Most instructions need `L->top == L->ci->top`; an
instruction with an open number of results (`OP_CALL` and `OP_TAILCALL` with `C = 0`, `OP_VARARG`
with `B = 0`) leaves `L->top` after its last result, and the next one takes everything from its
register `A` up to there.

An `Activation` is a `Frame` of the interpreter with the positions this needs, all relative to the
base of the frame.  One thread is modelled: what other threads do between a yield and the next
resume shows here only as the number of values the yielding call returns.  A function called by C
code (a metamethod, an iterator, a hook, a finalizer, a coroutine's body) runs in a `gafqV_execute`
of its own: its activation is `fresh`, and its return goes back into the middle of the instruction
that the activation below is executing.
-/

namespace Gafq

structure Activation extends Frame where
  /-- `L->top - L->base` when the current instruction was fetched -/
  top : Int
  /-- `L->ci->top - L->base` -/
  ciTop : Int
  /-- `ci->base - ci->func - 1 - p->numparams`: the number of extra arguments of a vararg function -/
  extra : Int
  /-- entered by a call of `gafqV_execute`, not by its `goto reentry` -/
  fresh : Bool

/-- An activation that `gafqD_precall` has prepared for `actual` arguments. -/
def Activation.start (callee : Proto) (actual : Int) (fresh : Bool) : Activation where
  proto := callee
  pc := 0
  top := callee.maxstacksize.toNat
  ciTop := callee.maxstacksize.toNat
  extra :=
    if callee.isVararg = 0 then -callee.numparams.toNat
    else max actual callee.numparams.toNat - callee.numparams.toNat
  fresh

/-- The first position that an instruction with `B = 0` takes from: the function it calls or the
table it fills stands below its operands, a value returned is one itself. -/
def firstTaken (i : Instruction) : Nat :=
  match opcode? i with
  | some .return => getArgA i
  | _ => getArgA i + 1

/-- How many values an instruction with `B = 0` takes. -/
def Activation.taken (fr : Activation) (i : Instruction) : Int := fr.top - firstTaken i

/-- The number of arguments that `OP_CALL` and `OP_TAILCALL` pass. -/
def Activation.arguments (fr : Activation) (i : Instruction) : Int :=
  if getArgB i = 0 then fr.taken i else getArgB i - 1

/-- The number of values `gafqD_poscall` finds between `R(A)` and `L->top` for an `OP_RETURN`. -/
def Activation.results (fr : Activation) (i : Instruction) : Int :=
  if getArgB i = 0 then max 0 (fr.taken i) else getArgB i - 1

/-- `L->top` after an instruction that makes no call of its own. -/
def Activation.settledTop (fr : Activation) (i : Instruction) : Int :=
  match opcode? i with
  | some .vararg => if getArgB i = 0 then getArgA i + fr.extra else fr.top
  | some .setlist => if getArgB i = 0 then fr.ciTop else fr.top
  | some .tforloop => fr.ciTop
  | _ => fr.top

/-- `OP_CALL` completed with `n` results: `L->top` is corrected unless their number is open. -/
def Activation.completeCall (fr : Activation) (i : Instruction) (n : Int) : Activation :=
  { fr with pc := fr.pc + 1, top := if getArgC i = 0 then getArgA i + n else fr.ciTop }

/-- `OP_TAILCALL` completed by a C function: its results stay at `R(A)`, whatever `C` is. -/
def Activation.completeTailcall (fr : Activation) (i : Instruction) (n : Int) : Activation :=
  { fr with pc := fr.pc + 1, top := getArgA i + n }

/-- The moves of one thread, for the conditions that a run can be asked to meet. -/
inductive Move where
  /-- an instruction other than a call or a return -/
  | next (taken : Bool)
  /-- a C function called by `OP_CALL` returns `n` values, or is resumed with them after a yield -/
  | callC (n : Nat)
  | tailcallC (n : Nat)
  /-- a Gafq function called by `OP_CALL` or `OP_TAILCALL`; `hole` when it is the `__call` tag
  method of the value called, which becomes its first argument -/
  | callGafq (callee : Proto) (hole : Bool)
  | tailcallGafq (callee : Proto) (hole : Bool)
  /-- C code run by the current instruction calls a Gafq function -/
  | nested (callee : Proto) (actual : Nat)
  | ret
  | retFresh
  /-- an error caught by the C code that had called the last of the frames dropped -/
  | raise (dropped : Nat)
  /-- a hook yields before the current instruction; the resumer reserves `room` slots with
  `gafq_checkstack` and leaves `n` values on the stack -/
  | hookYield (room n : Nat)

inductive Moves : Move → List Activation → List Activation → Prop
  | next {fr : Activation} {i : Instruction} {rest : List Activation} (taken : Bool)
      (fetched : fr.instr? = some i)
      (plain : opcode? i ≠ some .call ∧ opcode? i ≠ some .tailcall ∧ opcode? i ≠ some .return) :
      Moves (.next taken) (fr :: rest)
        ({ fr with pc := nextPc fr.toFrame i taken, top := fr.settledTop i } :: rest)
  | callC {fr : Activation} {i : Instruction} {rest : List Activation} (n : Nat)
      (fetched : fr.instr? = some i) (op : opcode? i = some .call) :
      Moves (.callC n) (fr :: rest) (fr.completeCall i n :: rest)
  | tailcallC {fr : Activation} {i : Instruction} {rest : List Activation} (n : Nat)
      (fetched : fr.instr? = some i) (op : opcode? i = some .tailcall) :
      Moves (.tailcallC n) (fr :: rest) (fr.completeTailcall i n :: rest)
  | callGafq {fr : Activation} {i : Instruction} {rest : List Activation} (callee : Proto) (hole : Bool)
      (fetched : fr.instr? = some i) (op : opcode? i = some .call) :
      Moves (.callGafq callee hole) (fr :: rest)
        (.start callee (fr.arguments i + hole.toNat) false :: fr :: rest)
  /-- the new frame takes the place of the caller's, which keeps its way back -/
  | tailcallGafq {fr : Activation} {i : Instruction} {rest : List Activation} (callee : Proto) (hole : Bool)
      (fetched : fr.instr? = some i) (op : opcode? i = some .tailcall) :
      Moves (.tailcallGafq callee hole) (fr :: rest)
        (.start callee (fr.arguments i + hole.toNat) fr.fresh :: rest)
  | nested {fr : Activation} {i : Instruction} {rest : List Activation} (callee : Proto) (actual : Nat)
      (fetched : fr.instr? = some i) :
      Moves (.nested callee actual) (fr :: rest) (.start callee actual true :: fr :: rest)
  /-- the caller's `OP_CALL` is completed with the values returned -/
  | ret {fr caller : Activation} {i j : Instruction} {rest : List Activation}
      (fetched : fr.instr? = some i) (op : opcode? i = some .return) (reentered : fr.fresh = false)
      (calling : caller.instr? = some j) (call : opcode? j = some .call) :
      Moves .ret (fr :: caller :: rest) (caller.completeCall j (fr.results i) :: rest)
  | retFresh {fr : Activation} {i : Instruction} {rest : List Activation}
      (fetched : fr.instr? = some i) (op : opcode? i = some .return) (fresh : fr.fresh = true) :
      Moves .retFresh (fr :: rest) rest
  | raise {dropped rest : List Activation} {last : Activation} (fresh : last.fresh = true) :
      Moves (.raise dropped.length) (dropped ++ last :: rest) rest
  | hookYield {fr : Activation} {i : Instruction} {rest : List Activation} (room n : Nat)
      (fetched : fr.instr? = some i) (reserved : fr.top + n ≤ max fr.ciTop (fr.top + room)) :
      Moves (.hookYield room n) (fr :: rest)
        ({ fr with top := fr.top + n, ciTop := max fr.ciTop (fr.top + room) } :: rest)

/-- What holds when an instruction is fetched: the interpreter's assertion on `L->top`, and that an
instruction that takes its operands up to `L->top` takes no negative number of them. -/
def Activation.TopMatches (fr : Activation) : Prop :=
  ∀ i, fr.instr? = some i →
    (fr.top = fr.ciTop ∨ checkopenop i = true) ∧ (checkopenop i = true → 0 ≤ fr.taken i)

end Gafq
