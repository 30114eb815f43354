import Gafq.Debug

/-! # Control flow and operand accesses of the interpreter

What the loop of `gafqV_execute` (`gvm.c`) does with `pc` and with the operands of the
instruction it has fetched, for every outcome of the run-time tests.

A `Frame` is one activation of a prototype together with the position of the instruction it
is executing.  In the C code `pc` already points past that instruction; a callee saves it in
`ci->savedpc` and `gafqD_poscall` brings it back, so a suspended frame keeps its position
while other frames run above it.  The values met at run time enter only through `taken`, the
outcome of the one test an instruction makes, and through the choice of the rule of `Step`.
-/

namespace Gafq

/-- One activation of a prototype and the position of its current instruction. -/
structure Frame where
  proto : Proto
  pc : Int

/-- The instruction fetched at `pc`, `none` outside the code array. -/
def Frame.instr? (fr : Frame) : Option Instruction :=
  if 0 ≤ fr.pc then fr.proto.code[fr.pc.toNat]? else none

/-- The word after the current instruction, `*pc` inside the interpreter's `switch`. -/
def Frame.following (fr : Frame) : Instruction := fr.proto.instr (fr.pc.toNat + 1)

/-- Where the next instruction is fetched.  `taken` is the outcome of the comparison, of the
truth test or of the loop condition. -/
def nextPc (fr : Frame) (i : Instruction) (taken : Bool) : Int :=
  match opcode? i with
  | some .loadbool => if getArgC i ≠ 0 then fr.pc + 2 else fr.pc + 1
  | some .jmp | some .forprep => fr.pc + 1 + getArgSBx i
  | some .eq | some .lt | some .le | some .test | some .testset | some .tforloop =>
    -- `dojump(L, pc, GETARG_sBx(*pc))` and then `pc++`
    if taken then fr.pc + 1 + getArgSBx fr.following + 1 else fr.pc + 2
  | some .forloop => if taken then fr.pc + 1 + getArgSBx i else fr.pc + 1
  | some .setlist => if getArgC i = 0 then fr.pc + 2 else fr.pc + 1
  | some .closure => fr.pc + 1 + fr.proto.nestedNups (getArgBx i)
  | _ => fr.pc + 1

/-- One move of the interpreter on its stack of frames, innermost first. -/
inductive Step : List Frame → List Frame → Prop
  /-- The current instruction ends and the next one is fetched. -/
  | next {fr : Frame} {i : Instruction} {rest : List Frame} (taken : Bool)
      (fetched : fr.instr? = some i) (stays : opcode? i ≠ some .return) :
      Step (fr :: rest) ({ fr with pc := nextPc fr i taken } :: rest)
  /-- The current instruction calls a Gafq function: `OP_CALL`, a metamethod, an iterator, a
  hook or a finalizer.  The callee starts at `p->code`. -/
  | enter {fr : Frame} {i : Instruction} {rest : List Frame} (callee : Proto)
      (fetched : fr.instr? = some i) : Step (fr :: rest) (⟨callee, 0⟩ :: fr :: rest)
  /-- `OP_TAILCALL` puts the callee's frame in the place of the caller's. -/
  | tail {fr : Frame} {i : Instruction} {rest : List Frame} (callee : Proto)
      (fetched : fr.instr? = some i) (op : opcode? i = some .tailcall) :
      Step (fr :: rest) (⟨callee, 0⟩ :: rest)
  /-- The innermost frame ends: `OP_RETURN`, or an error caught further out. -/
  | leave {fr : Frame} {rest : List Frame} : Step (fr :: rest) rest

/-- `Step` restricted to moves whose innermost frame meets `P`. -/
def GuardedStep (P : Frame → Prop) (s t : List Frame) : Prop :=
  Step s t ∧ ∀ fr ∈ s.head?, P fr

/-- A run that starts by calling `pt`. -/
def RunFrom (P : Frame → Prop) (pt : Proto) (s : List Frame) : Prop :=
  Relation.ReflTransGen (GuardedStep P) [⟨pt, 0⟩] s

/-! ## Operand accesses -/

/-- What one instruction reads or writes at a fixed offset from its operands. -/
structure Accesses where
  regs : List Nat := []
  consts : List Nat := []
  upvals : List Nat := []
  protos : List Nat := []
deriving DecidableEq, Repr

def Accesses.append (x y : Accesses) : Accesses :=
  ⟨x.regs ++ y.regs, x.consts ++ y.consts, x.upvals ++ y.upvals, x.protos ++ y.protos⟩

instance : Append Accesses := ⟨Accesses.append⟩

/-- `RKB` and `RKC`: a constant or a register. -/
def accessRK (r : Nat) : Accesses := if isK r then { consts := [indexK r] } else { regs := [r] }

/-- The registers `first, ..., first + n - 1`. -/
def accessRange (first n : Nat) : Accesses := { regs := List.range' first n }

/-- What `OP_CLOSURE` does with one of the pseudo-instructions that follow it. -/
def accessCapture (i : Instruction) : Accesses :=
  if hasOpcode i .getupval then { upvals := [getArgB i] } else { regs := [getArgB i] }

/-- The pseudo-instructions that `OP_CLOSURE` at `pc` consumes. -/
def captures (pt : Proto) (pc n : Nat) : List Instruction :=
  (List.range n).map fun j => pt.instr (pc + 1 + j)

/-- The operands the interpreter's `case` touches for the instruction at `pc`; ranges that end
at `L->top` (`B = 0` and `C = 0` of the open instructions) are left out. -/
def accesses (pt : Proto) (pc : Nat) (i : Instruction) : Accesses :=
  let a := getArgA i
  let b := getArgB i
  let c := getArgC i
  match opcode? i with
  | some .move | some .unm | some .not | some .len | some .testset => { regs := [a, b] }
  | some .loadk | some .getglobal | some .setglobal => { regs := [a], consts := [getArgBx i] }
  | some .loadbool | some .newtable | some .test | some .close => { regs := [a] }
  -- `do setnilvalue(rb--); while (rb >= ra)` writes `R(B)` even when `B < A`
  | some .loadnil => { regs := b :: List.range' a (b - a) }
  | some .getupval | some .setupval => { regs := [a], upvals := [b] }
  | some .gettable => { regs := [a, b] } ++ accessRK c
  | some .settable => { regs := [a] } ++ accessRK b ++ accessRK c
  | some .self => { regs := [a, a + 1, b] } ++ accessRK c
  | some .add | some .sub | some .mul | some .div | some .mod | some .pow =>
    { regs := [a] } ++ accessRK b ++ accessRK c
  | some .concat => { regs := [a] } ++ accessRange b (c + 1 - b)
  | some .eq | some .lt | some .le => accessRK b ++ accessRK c
  -- the function and its `B - 1` arguments; `C - 1` results
  | some .call => { regs := [a] } ++ accessRange a b ++ accessRange a (c - 1)
  | some .tailcall => { regs := [a] } ++ accessRange a b
  | some .return => accessRange a (b - 1)
  | some .forloop => accessRange a 4
  | some .forprep => accessRange a 3
  -- function, state and control variable are copied to the call base `ra + 3`
  | some .tforloop => accessRange a 6 ++ accessRange (a + 3) c
  | some .setlist => { regs := [a] } ++ accessRange (a + 1) b
  | some .closure =>
    (captures pt pc (pt.nestedNups (getArgBx i))).foldl (fun acc w => acc ++ accessCapture w)
      { regs := [a], protos := [getArgBx i] }
  | some .vararg => accessRange a (b - 1)
  | some .jmp | none => {}

/-- Every access stays inside the frame, the constants, the upvalues and the nested functions. -/
structure Accesses.InBounds (pt : Proto) (x : Accesses) : Prop where
  regs : ∀ r ∈ x.regs, r < pt.maxstacksize.toNat
  consts : ∀ k ∈ x.consts, k < pt.sizek
  upvals : ∀ u ∈ x.upvals, u < pt.nups.toNat
  protos : ∀ p ∈ x.protos, p < pt.sizep

end Gafq
