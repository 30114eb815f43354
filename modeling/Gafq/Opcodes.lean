import Mathlib

/-! # Instructions of the virtual machine

The instruction word of `gopcodes.h` and the operand-mode table of `gopcodes.c`.
An instruction is an unsigned 32-bit word with a six-bit opcode and the fields

* `A` : 8 bits, `B` : 9 bits, `C` : 9 bits,
* `Bx` : 18 bits (`B` and `C` together) and `sBx`, the same bits in excess `MAXARG_sBx`.

Every field is read back as a natural number (`sBx` as an integer), which is how
`gdebug.c` and `gvm.c` use them once the `GETARG_*` macros have cast them to `int`.
-/

namespace Gafq

/-- A virtual-machine instruction: `lu_int32` of `glimits.h`. -/
abbrev Instruction := UInt32

/-! ## Field accessors -/

def sizeOp : Nat := 6
def sizeA : Nat := 8
def sizeB : Nat := 9
def sizeC : Nat := 9
def sizeBx : Nat := sizeC + sizeB

def posOp : Nat := 0
def posA : Nat := posOp + sizeOp
def posC : Nat := posA + sizeA
def posB : Nat := posC + sizeC
def posBx : Nat := posC

/-- The `size` bits of `i` that start at bit `pos`: `((i) >> pos) & MASK1(size, 0)`. -/
def getField (i : Instruction) (pos size : Nat) : Nat := (i.toNat >>> pos) &&& (2 ^ size - 1)

def maxArgBx : Nat := 2 ^ sizeBx - 1
def maxArgSBx : Nat := maxArgBx >>> 1
def maxArgA : Nat := 2 ^ sizeA - 1

def getOpcode (i : Instruction) : Nat := getField i posOp sizeOp
def getArgA (i : Instruction) : Nat := getField i posA sizeA
def getArgB (i : Instruction) : Nat := getField i posB sizeB
def getArgC (i : Instruction) : Nat := getField i posC sizeC
def getArgBx (i : Instruction) : Nat := getField i posBx sizeBx
def getArgSBx (i : Instruction) : Int := (getArgBx i : Int) - maxArgSBx

/-! ## RK operands -/

/-- The bit that marks an operand as a constant index. -/
def bitRK : Nat := 2 ^ (sizeB - 1)

def isK (x : Nat) : Bool := x &&& bitRK != 0

/-- `INDEXK`: the operand with its constant mark cleared, `r & ~BITRK`. -/
def indexK (r : Nat) : Nat := r - (r &&& bitRK)

/-- Invalid register that fits in 8 bits. -/
def noReg : Nat := maxArgA

/-- Number of list items to accumulate before a `SETLIST` instruction. -/
def lfieldsPerFlush : Nat := 50

/-! ## Opcodes -/

inductive OpCode where
  | move | loadk | loadbool | loadnil | getupval
  | getglobal | gettable
  | setglobal | setupval | settable
  | newtable
  | self
  | add | sub | mul | div | mod | pow | unm | not | len
  | concat
  | jmp
  | eq | lt | le
  | test | testset
  | call | tailcall | return
  | forloop | forprep
  | tforloop | setlist
  | close | closure
  | vararg
deriving DecidableEq, Repr

/-- The opcodes in the order of the C enumeration. -/
def OpCode.all : List OpCode :=
  [.move, .loadk, .loadbool, .loadnil, .getupval,
   .getglobal, .gettable,
   .setglobal, .setupval, .settable,
   .newtable,
   .self,
   .add, .sub, .mul, .div, .mod, .pow, .unm, .not, .len,
   .concat,
   .jmp,
   .eq, .lt, .le,
   .test, .testset,
   .call, .tailcall, .return,
   .forloop, .forprep,
   .tforloop, .setlist,
   .close, .closure,
   .vararg]

def numOpcodes : Nat := 38

/-- The opcode with a given number; the six opcode bits leave 26 numbers without one. -/
def OpCode.ofNat? (n : Nat) : Option OpCode := OpCode.all[n]?

/-- The opcode of an instruction, `none` when `GET_OPCODE` is not below `NUM_OPCODES`. -/
def opcode? (i : Instruction) : Option OpCode := OpCode.ofNat? (getOpcode i)

theorem opcode?_isSome_iff (i : Instruction) :
    (opcode? i).isSome = true ↔ getOpcode i < numOpcodes := by
  simp [opcode?, OpCode.ofNat?, OpCode.all, numOpcodes]

/-! ## Operand modes -/

inductive OpMode where
  | iABC | iABx | iAsBx
deriving DecidableEq, Repr

inductive OpArgMask where
  /-- argument is not used -/
  | argN
  /-- argument is used -/
  | argU
  /-- argument is a register or a jump offset -/
  | argR
  /-- argument is a constant or register/constant -/
  | argK
deriving DecidableEq, Repr

/-- One row of `gafqP_opmodes`. -/
structure OpModes where
  /-- operator is a test: the next instruction must be a jump -/
  test : Bool
  /-- instruction sets register `A` -/
  setsA : Bool
  b : OpArgMask
  c : OpArgMask
  mode : OpMode
deriving DecidableEq, Repr

open OpArgMask OpMode in
/-- The table `gafqP_opmodes`. -/
def opmodes : OpCode → OpModes
  | .move => ⟨false, true, argR, argN, iABC⟩
  | .loadk => ⟨false, true, argK, argN, iABx⟩
  | .loadbool => ⟨false, true, argU, argU, iABC⟩
  | .loadnil => ⟨false, true, argR, argN, iABC⟩
  | .getupval => ⟨false, true, argU, argN, iABC⟩
  | .getglobal => ⟨false, true, argK, argN, iABx⟩
  | .gettable => ⟨false, true, argR, argK, iABC⟩
  | .setglobal => ⟨false, false, argK, argN, iABx⟩
  | .setupval => ⟨false, false, argU, argN, iABC⟩
  | .settable => ⟨false, false, argK, argK, iABC⟩
  | .newtable => ⟨false, true, argU, argU, iABC⟩
  | .self => ⟨false, true, argR, argK, iABC⟩
  | .add | .sub | .mul | .div | .mod | .pow => ⟨false, true, argK, argK, iABC⟩
  | .unm | .not | .len => ⟨false, true, argR, argN, iABC⟩
  | .concat => ⟨false, true, argR, argR, iABC⟩
  | .jmp => ⟨false, false, argR, argN, iAsBx⟩
  | .eq | .lt | .le => ⟨true, false, argK, argK, iABC⟩
  | .test | .testset => ⟨true, true, argR, argU, iABC⟩
  | .call | .tailcall => ⟨false, true, argU, argU, iABC⟩
  | .return => ⟨false, false, argU, argN, iABC⟩
  | .forloop | .forprep => ⟨false, true, argR, argN, iAsBx⟩
  | .tforloop => ⟨true, false, argN, argU, iABC⟩
  | .setlist => ⟨false, false, argU, argU, iABC⟩
  | .close => ⟨false, false, argN, argN, iABC⟩
  | .closure => ⟨false, true, argU, argN, iABx⟩
  | .vararg => ⟨false, true, argU, argN, iABC⟩

/-! ## Building instructions -/

def createABC (o : Nat) (a b c : Nat) : Instruction :=
  UInt32.ofNat ((o <<< posOp) ||| (a <<< posA) ||| (b <<< posB) ||| (c <<< posC))

def createABx (o : Nat) (a bc : Nat) : Instruction :=
  UInt32.ofNat ((o <<< posOp) ||| (a <<< posA) ||| (bc <<< posBx))

/-- The number of an opcode in the C enumeration. -/
def OpCode.toNat (op : OpCode) : Nat := OpCode.all.idxOf op

example : opcode? (createABC OpCode.call.toNat 3 2 1) = some .call := by decide
example : getArgB (createABC OpCode.call.toNat 3 2 1) = 2 := by decide

end Gafq
