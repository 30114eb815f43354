import Gafq.VM
import Gafq.Compare
import Gafq.Lex

/-! # Names of values in error messages

`gafqF_getlocalname` of `gfunc.c` and `kname` and `getobjname` of `gdebug.c`, for one activation of a Gafq
function.  Next to them stands what the instructions do with the registers of that activation, so that the
name can be compared with where the value has come from.
-/

namespace Gafq

/-! ## The names -/

/-- The loop of `gafqF_getlocalname`. -/
def getlocalnameFrom (pc : Int) : List LocVar → (localNumber : Int) → Option TString
  | [], _ => none
  | v :: locvars, localNumber =>
    if v.startpc ≤ pc then
      -- is variable active?
      if pc < v.endpc then
        if localNumber - 1 = 0 then some (v.varname.getD []) else getlocalnameFrom pc locvars (localNumber - 1)
      else getlocalnameFrom pc locvars localNumber
    else none

/-- `gafqF_getlocalname` -/
def getlocalname (f : Proto) (localNumber pc : Int) : Option TString := getlocalnameFrom pc f.locvars localNumber

inductive NameKind where
  | localVar | global | field | upvalue | method
deriving DecidableEq, Repr

/-- `svalue` of a constant that is a string, `?` for other constants. -/
def constantName (pt : Proto) (k : Nat) : TString :=
  match pt.const k with
  | .string s => s.getD []
  | _ => Lexer.bytes "?"

def kname (pt : Proto) (c : Nat) : TString := if isK c then constantName pt (indexK c) else Lexer.bytes "?"

/-- The name to which an instruction refers, other than `OP_MOVE`. -/
def nameAt (pt : Proto) (i : Instruction) : Option (NameKind × TString) :=
  match opcode? i with
  | some .getglobal => some (.global, constantName pt (getArgBx i))
  | some .gettable => some (.field, kname pt (getArgC i))
  | some .getupval => some (.upvalue, ((pt.upvalues[getArgB i]?).map fun name => name.getD []).getD (Lexer.bytes "?"))
  | some .self => some (.method, kname pt (getArgC i))
  | _ => none

/-- `getobjname` at the position `pc`; every `OP_MOVE` goes to a smaller register. -/
def getobjnameFrom (pt : Proto) (pc : Nat) : (fuel : Nat) → (stackpos : Nat) → Option (NameKind × TString)
  | 0, _ => none
  | fuel + 1, stackpos =>
    match getlocalname pt (stackpos + 1) pc with
    -- is a local?
    | some name => some (.localVar, name)
    | none =>
      -- try symbolic execution
      let i := symbexec pt pc stackpos
      if opcode? i = some .move then
        -- get name for `b'
        if getArgB i < getArgA i then getobjnameFrom pt pc fuel (getArgB i) else none
      else nameAt pt i

def getobjname (pt : Proto) (pc stackpos : Nat) : Option (NameKind × TString) := getobjnameFrom pt pc (stackpos + 1) stackpos

/-! ## The registers -/

/-- The registers that an instruction changes, those included where functions that it calls have their own. -/
def changes (i : Instruction) (taken : Bool) (r : Nat) : Prop :=
  let a := getArgA i
  let b := getArgB i
  let c := getArgC i
  match opcode? i with
  | some .move | some .loadk | some .loadbool | some .getupval | some .getglobal | some .gettable | some .newtable
  | some .add | some .sub | some .mul | some .div | some .mod | some .pow | some .unm | some .not | some .len
  | some .closure => r = a
  | some .loadnil => r = b ∨ a ≤ r ∧ r ≤ b
  | some .self => r = a ∨ r = a + 1
  -- the operands are concatenated in place
  | some .concat => r = a ∨ b ≤ r ∧ r < c
  | some .testset => taken = true ∧ r = a
  | some .call | some .tailcall => a ≤ r
  | some .forloop => taken = true ∧ (r = a ∨ r = a + 3)
  -- strings are converted in place
  | some .forprep => a ≤ r ∧ r ≤ a + 2
  | some .tforloop => taken = true ∧ r = a + 2 ∨ a + 3 ≤ r
  | some .vararg => a ≤ r ∧ (b = 0 ∨ r + 1 < a + b)
  | _ => False

/-- The registers that it may have changed before it raises an error. -/
def changesEarly (i : Instruction) (r : Nat) : Prop :=
  match opcode? i with
  | some .concat => getArgB i ≤ r ∧ r < getArgC i
  | some .self => r = getArgA i + 1
  | some .forprep => getArgA i ≤ r ∧ r ≤ getArgA i + 2
  | some .tforloop => getArgA i + 3 ≤ r
  | _ => False

variable {N : Type}

/-- RegisterState and the position of the instruction that comes next. -/
structure RegisterState (N : Type) where
  pc : Nat
  reg : Nat → TValue N

/-- `l_isfalse(v) != c` -/
def differs (v : TValue N) (c : Nat) : Bool := (if v.isFalse then 1 else 0) != c

/-- What the registers say about a test. -/
def RegisterState.Decides (s : RegisterState N) (i : Instruction) (taken : Bool) : Prop :=
  match opcode? i with
  | some .test => taken = differs (s.reg (getArgA i)) (getArgC i)
  | some .testset => taken = differs (s.reg (getArgB i)) (getArgC i)
  | _ => True

/-- The values that do not depend on anything else than the registers. -/
def RegisterState.Results (s s' : RegisterState N) (i : Instruction) (taken : Bool) : Prop :=
  match opcode? i with
  | some .move => s'.reg (getArgA i) = s.reg (getArgB i)
  | some .loadnil => ∀ r, changes i taken r → s'.reg r = .nil
  | some .loadbool => s'.reg (getArgA i) = .boolean (getArgB i ≠ 0)
  | some .testset => taken = true → s'.reg (getArgA i) = s.reg (getArgB i)
  | _ => True

/-- An instruction of the activation from beginning to end.  Of what it gets from constants, tables, upvalues and other
functions nothing is said; functions that run meanwhile may assign to variables that they have captured. -/
structure Executes (pt : Proto) (taken : Bool) (written : Nat → Prop) (s s' : RegisterState N) : Prop where
  inside : s.pc < pt.sizecode
  stays : opcode? (pt.instr s.pc) ≠ some .return
  decides : s.Decides (pt.instr s.pc) taken
  next : (s'.pc : Int) = nextPc ⟨pt, s.pc⟩ (pt.instr s.pc) taken
  writes : ∀ r, changes (pt.instr s.pc) taken r → written r
  results : s.Results s' (pt.instr s.pc) taken
  frame : ∀ r, ¬ written r → s'.reg r = s.reg r

/-- An instruction that has been executed: the state before it, and the registers that have been written. -/
structure Executed (N : Type) where
  state : RegisterState N
  written : Nat → Prop

/-- A run of an activation from its first instruction. -/
inductive ActivationRun (pt : Proto) : List (Executed N) → RegisterState N → Prop
  | enter (reg : Nat → TValue N) : ActivationRun pt [] ⟨0, reg⟩
  | execute {steps : List (Executed N)} {s s' : RegisterState N} {taken : Bool} {written : Nat → Prop}
      (run : ActivationRun pt steps s) (executes : Executes pt taken written s s') : ActivationRun pt (steps ++ [⟨s, written⟩]) s'

end Gafq
