import Gafq.Object

/-! # Symbolic execution and code checker

`precheck`, `checkArgMode`, `symbexec` and `gafqG_checkcode` of `gdebug.c`.

The C function interleaves three things in one loop body: the `check(...)` tests, which
abandon the scan with result `0`; the updates of `last`, the last instruction seen to change
the traced register; and the changes to `pc`.  No test depends on `last` or on the traced
register, so the three are separate definitions here (`stepChecks`, `stepLast`, `stepPc`) and
`symbexecLoop` puts them back together.  Operands are `Int`, as the C `int`s are: the register
bounds `checkreg(pt, a+b-1)` are signed comparisons.
-/

namespace Gafq

/-- `checkreg`. -/
def checkReg (pt : Proto) (reg : Int) : Bool := reg < pt.maxstacksize.toNat

/-- `GET_OPCODE(i) == op`. -/
def hasOpcode (i : Instruction) (op : OpCode) : Bool := opcode? i == some op

/-- An `OP_SETLIST` whose `C` is zero: the next word is its raw count. -/
def isOpenSetlist (i : Instruction) : Bool := hasOpcode i .setlist && getArgC i == 0

def precheck (pt : Proto) : Bool :=
  decide (pt.maxstacksize.toNat ≤ maxStack) &&
  decide (pt.numparams.toNat + pt.hasArg ≤ pt.maxstacksize.toNat) &&
  (!pt.varargFlag varargNeedsArg || pt.varargFlag varargHasArg) &&
  decide (pt.sizeupvalues ≤ pt.nups.toNat) &&
  (pt.sizelineinfo == pt.sizecode || pt.sizelineinfo == 0) &&
  (decide (0 < pt.sizecode) && hasOpcode (pt.instr (pt.sizecode - 1)) .return)

/-- `gafqG_checkopenop`: the instruction takes its operands up to `L->top`. -/
def checkopenop (i : Instruction) : Bool :=
  match opcode? i with
  | some .call | some .tailcall | some .return | some .setlist => getArgB i == 0
  | _ => false

def checkArgMode (pt : Proto) (r : Nat) : OpArgMask → Bool
  | .argN => r == 0
  | .argU => true
  | .argR => checkReg pt r
  | .argK => if isK r then decide (indexK r < pt.sizek) else checkReg pt r

/-! ## Operands -/

/-- The variable `b` of `symbexec` after the operands are decoded. -/
def operandB (i : Instruction) (op : OpCode) : Int :=
  match (opmodes op).mode with
  | .iABC => getArgB i
  | .iABx => getArgBx i
  | .iAsBx => getArgSBx i

/-- The variable `c` of `symbexec`; only `iABC` instructions have one. -/
def operandC (i : Instruction) (op : OpCode) : Int :=
  match (opmodes op).mode with
  | .iABC => getArgC i
  | .iABx | .iAsBx => 0

/-- How many words just before `dest` look like an `OP_SETLIST` with `C = 0`: the final
value of `j` in the loop that guards jumps against landing on a count word. -/
def setlistRun (pt : Proto) : Nat → Nat
  | 0 => 0
  | m + 1 => if isOpenSetlist (pt.instr m) then setlistRun pt m + 1 else 0

/-- The tests on the destination of a jump. -/
def checkDest (pt : Proto) (dest : Int) : Bool :=
  decide (0 ≤ dest) && decide (dest < pt.sizecode) &&
  (!decide (0 < dest) || setlistRun pt dest.toNat % 2 == 0)

def operandChecks (pt : Proto) (pc : Nat) (i : Instruction) (op : OpCode) : Bool :=
  match (opmodes op).mode with
  | .iABC =>
    checkArgMode pt (getArgB i) (opmodes op).b && checkArgMode pt (getArgC i) (opmodes op).c
  | .iABx => (opmodes op).b != .argK || decide (getArgBx i < pt.sizek)
  | .iAsBx => (opmodes op).b != .argR || checkDest pt (pc + 1 + getArgSBx i)

/-- `testTMode`: the skip stays in the code and the instruction skipped is a jump. -/
def testChecks (pt : Proto) (pc : Nat) (op : OpCode) : Bool :=
  !(opmodes op).test || (decide (pc + 2 < pt.sizecode) && hasOpcode (pt.instr (pc + 1)) .jmp)

/-- The tests in the `switch` over the opcodes. -/
def opChecks (pt : Proto) (pc : Nat) (i : Instruction) (op : OpCode) : Bool :=
  let a : Int := getArgA i
  let b := operandB i op
  let c := operandC i op
  match op with
  | .loadbool =>
    !(c == 1) || (decide (pc + 2 < pt.sizecode) && !isOpenSetlist (pt.instr (pc + 1)))
  | .getupval | .setupval => decide (b < pt.nups.toNat)
  | .getglobal | .setglobal => (pt.const b.toNat).isString
  | .self => checkReg pt (a + 1)
  | .concat => decide (b < c)
  | .tforloop => decide (1 ≤ c) && checkReg pt (a + 2 + c)
  | .forloop | .forprep => checkReg pt (a + 3)
  | .call | .tailcall =>
    (b == 0 || checkReg pt (a + b - 1)) &&
    (if c - 1 == -1 then checkopenop (pt.instr (pc + 1))
     else c - 1 == 0 || checkReg pt (a + (c - 1) - 1))
  | .return => !decide (0 < b - 1) || checkReg pt (a + (b - 1) - 1)
  | .setlist =>
    (!decide (0 < b) || checkReg pt (a + b)) &&
    (!(c == 0) || decide (pc + 1 < pt.sizecode - 1))
  | .closure =>
    decide (b < pt.sizep) && decide (pc + pt.nestedNups b.toNat < pt.sizecode) &&
    (List.range (pt.nestedNups b.toNat)).all fun j =>
      hasOpcode (pt.instr (pc + (j + 1))) .getupval || hasOpcode (pt.instr (pc + (j + 1))) .move
  | .vararg =>
    (pt.varargFlag varargIsVararg && !pt.varargFlag varargNeedsArg) &&
    (!(b - 1 == -1) || checkopenop (pt.instr (pc + 1))) && checkReg pt (a + (b - 1) - 1)
  | _ => true

/-- All the tests `symbexec` makes on the instruction at `pc`. -/
def stepChecks (pt : Proto) (pc : Nat) : Bool :=
  let i := pt.instr pc
  match opcode? i with
  | none => false
  | some op =>
    checkReg pt (getArgA i) && operandChecks pt pc i op && testChecks pt pc op && opChecks pt pc i op

/-! ## Tracing a register -/

/-- The value of `last` after the instruction at `pc`, when register `reg` is traced. -/
def stepLast (pt : Proto) (reg pc last : Nat) : Nat :=
  let i := pt.instr pc
  let a := getArgA i
  match opcode? i with
  | none => last
  | some op =>
    let last := if (opmodes op).setsA && a == reg then pc else last
    match op with
    | .loadnil => if a ≤ reg ∧ (reg : Int) ≤ operandB i op then pc else last
    | .self => if reg = a + 1 then pc else last
    | .tforloop => if a + 2 ≤ reg then pc else last
    | .call | .tailcall => if a ≤ reg then pc else last
    | _ => last

/-- The value of `pc` at the end of the loop body, before the loop increments it. -/
def stepPc (pt : Proto) (lastpc reg pc : Nat) : Nat :=
  let i := pt.instr pc
  match opcode? i with
  | some .forloop | some .forprep | some .jmp =>
    let dest := pc + 1 + getArgSBx i
    if reg ≠ noReg ∧ (pc : Int) < dest ∧ dest ≤ lastpc then (pc + getArgSBx i).toNat else pc
  | some .setlist => if getArgC i = 0 then pc + 1 else pc
  | some .closure => if reg ≠ noReg then pc + pt.nestedNups (getArgBx i) else pc
  | _ => pc

/-- The scan: `none` when a test fails, else the final value of `last`.  Every iteration
moves `pc` forward, so `lastpc` iterations are enough. -/
def symbexecLoop (pt : Proto) (lastpc reg : Nat) : Nat → Nat → Nat → Option Nat
  | 0, _, last => some last
  | fuel + 1, pc, last =>
    if pc < lastpc then
      if stepChecks pt pc then
        symbexecLoop pt lastpc reg fuel (stepPc pt lastpc reg pc + 1) (stepLast pt reg pc last)
      else none
    else some last

/-- The instruction that last changed register `reg` before `lastpc`, `0` if a test fails. -/
def symbexec (pt : Proto) (lastpc reg : Nat) : Instruction :=
  if precheck pt then
    match symbexecLoop pt lastpc reg lastpc 0 (pt.sizecode - 1) with
    | some last => pt.instr last
    | none => 0
  else 0

/-- `gafqG_checkcode`. -/
def checkcode (pt : Proto) : Bool := symbexec pt pt.sizecode noReg != 0

end Gafq
