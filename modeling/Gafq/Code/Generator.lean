import Gafq.Code.Setters
import Gafq.Code.Constants
import Gafq.Object
import Gafq.Lex

/-! # Emitting code

The state of the code generator and the part of `gcode.c` that does not look at expressions: it emits
instructions, threads pending jumps through their own offset fields, and reserves registers.

Of the calls of `gafqK_nil`, of the positions taken as jump targets and of the count words behind
`OP_SETLIST` the state keeps a record (`events`) that no function reads.  A vector has no size of its
own; `gafqM_growvector` fails when it already has as many elements as are allowed.
-/

namespace Gafq.Code

open Lexer

/-! ## The state -/

/-- `NO_JUMP` -/
def noJump : Int := -1

/-- `GAFQ_MULTRET` -/
def multRet : Int := -1

inductive ExpKind where
  | vvoid | vnil | vtrue | vfalse | vk | vknum | vlocal | vupval | vglobal | vindexed | vjmp | vrelocable | vnonreloc
  | vcall | vvararg
deriving DecidableEq, Repr

/-- `upvaldesc`, with the name in `f->upvalues`. -/
structure UpvalDesc where
  k : ExpKind
  info : Nat
  name : TString
deriving DecidableEq, Repr

/-- A node of the list of active blocks. -/
structure BlockCnt where
  /-- list of jumps out of this loop -/
  breaklist : Int
  /-- number of active locals outside the breakable structure -/
  nactvar : Nat
  /-- true if some variable in the block is an upvalue -/
  upval : Bool
  /-- true if the block is a loop -/
  isbreakable : Bool
deriving DecidableEq, Repr

/-- What the record keeps. -/
inductive Event where
  /-- `gafqK_getlabel` at `pc` -/
  | label (pc : Nat)
  /-- `gafqK_nil(from, n)` at `pc`; `coded` when it emitted an instruction there -/
  | nil (pc : Nat) (first n : Int) (coded : Bool)
  /-- a count word at `pc` -/
  | count (pc : Nat)
deriving DecidableEq, Repr

/-- State needed to generate code for a given function. -/
structure FuncState (N : Type) where
  /-- the table `h` and the constants of the function -/
  constants : Constants N
  code : Nat → Instruction
  lineinfo : Nat → Int
  /-- next position to code -/
  pc : Nat
  /-- `pc` of last jump target -/
  lasttarget : Int
  /-- list of pending jumps to `pc` -/
  jpc : Int
  /-- first free register -/
  freereg : Int
  /-- number of active local variables -/
  nactvar : Nat
  maxstacksize : Nat
  /-- chain of current blocks, innermost first -/
  bl : List BlockCnt
  /-- functions defined inside the function -/
  p : List Proto
  locvars : List LocVar
  /-- declared-variable stack -/
  actvar : Nat → Nat
  upvalues : List UpvalDesc
  numparams : Nat
  isVararg : Nat
  linedefined : Nat
  lastlinedefined : Nat
  /-- `ls->lastline` -/
  lastline : Nat
  events : List Event

inductive GenError where
  /-- `gafqX_syntaxerror` -/
  | syntaxerror (msg : TString)
  /-- `gafqX_lexerror` without a token -/
  | lexerror (msg : TString)
  /-- `gafqG_runerror` -/
  | runerror (msg : TString)
  | constants (e : CodeError)
  /-- a list of jumps without an end -/
  | outOfFuel
deriving DecidableEq, Repr

abbrev CodeM (N : Type) := EStateM GenError (FuncState N)

variable {N : Type}

/-- `gafqM_growvector`, for a vector with `nelems` elements in use. -/
def growVector (nelems limit : Nat) (errormsg : TString) : CodeM N Unit :=
  if limit ≤ nelems then throw (.runerror errormsg) else pure ()

/-- Change the word at `pc`. -/
def setCode (pc : Nat) (i : Instruction) : CodeM N Unit := modify fun fs => { fs with code := Function.update fs.code pc i }

def record (e : Event) : CodeM N Unit := modify fun fs => { fs with events := fs.events ++ [e] }

/-! ## Lists of jumps -/

def fixjump (pc dest : Int) : CodeM N Unit := do
  let fs ← get
  let offset := dest - (pc + 1)
  if offset.natAbs > maxArgSBx then throw (.syntaxerror (bytes "control structure too long"))
  setCode pc.toNat (setArgSBx (fs.code pc.toNat) offset)

/-- `gafqK_getlabel`: returns current `pc` and marks it as a jump target. -/
def getlabel : CodeM N Nat := do
  let fs ← get
  record (.label fs.pc)
  modify fun fs => { fs with lasttarget := fs.pc }
  pure fs.pc

def getjump (fs : FuncState N) (pc : Int) : Int :=
  let offset := getArgSBx (fs.code pc.toNat)
  -- point to itself represents end of list
  if offset = noJump then noJump
  -- turn offset into absolute position
  else pc + 1 + offset

def testTMode (i : Instruction) : Bool := (opcode? i).any fun o => (opmodes o).test

/-- The position that `getjumpcontrol` points to. -/
def getjumpcontrol (fs : FuncState N) (pc : Int) : Nat :=
  if pc ≥ 1 ∧ testTMode (fs.code (pc.toNat - 1)) = true then pc.toNat - 1 else pc.toNat

/-- `need_value`: check whether list has any jump that do not produce a value. -/
def needValue (fs : FuncState N) : (fuel : Nat) → (list : Int) → Option Bool
  | 0, _ => none
  | fuel + 1, list =>
    if list = noJump then some false
    else if opcode? (fs.code (getjumpcontrol fs list)) ≠ some .testset then some true
    else needValue fs fuel (getjump fs list)

def patchtestreg (node reg : Int) : CodeM N Bool := do
  let fs ← get
  let pos := getjumpcontrol fs node
  let i := fs.code pos
  -- cannot patch other instructions
  if opcode? i ≠ some .testset then pure false
  else
    if reg ≠ noReg ∧ reg ≠ getArgB i then setCode pos (setArgA i reg)
    -- no register to put value or register already has the value
    else setCode pos (instrABC .test (getArgB i) 0 (getArgC i))
    pure true

/-- The loop of `removevalues`. -/
def removevaluesLoop : (fuel : Nat) → (list : Int) → CodeM N Unit
  | 0, _ => throw .outOfFuel
  | fuel + 1, list =>
    if list = noJump then pure ()
    else do
      let _ ← patchtestreg list noReg
      let fs ← get
      removevaluesLoop fuel (getjump fs list)

/-- A list of jumps that ends has fewer elements than this. -/
def listFuel (fs : FuncState N) : Nat := fs.pc + 1

def removevalues (list : Int) : CodeM N Unit := do
  let fs ← get
  removevaluesLoop (listFuel fs) list

/-- `need_value`, which does not change the state. -/
def needvalue (list : Int) : CodeM N Bool := do
  let fs ← get
  match needValue fs (listFuel fs) list with
  | none => throw .outOfFuel
  | some b => pure b

/-- The loop of `patchlistaux`. -/
def patchlistauxLoop (vtarget reg dtarget : Int) : (fuel : Nat) → (list : Int) → CodeM N Unit
  | 0, _ => throw .outOfFuel
  | fuel + 1, list =>
    if list = noJump then pure ()
    else do
      let fs ← get
      let next := getjump fs list
      let patched ← patchtestreg list reg
      if patched then fixjump list vtarget
      -- jump to default target
      else fixjump list dtarget
      patchlistauxLoop vtarget reg dtarget fuel next

def patchlistaux (list vtarget reg dtarget : Int) : CodeM N Unit := do
  let fs ← get
  patchlistauxLoop vtarget reg dtarget (listFuel fs) list

def dischargejpc : CodeM N Unit := do
  let fs ← get
  patchlistaux fs.jpc fs.pc noReg fs.pc
  modify fun fs => { fs with jpc := noJump }

/-- The loop of `gafqK_concat`: the last element of a list. -/
def lastjump (fs : FuncState N) : (fuel : Nat) → (list : Int) → Option Int
  | 0, _ => none
  | fuel + 1, list =>
    let next := getjump fs list
    if next = noJump then some list else lastjump fs fuel next

/-- `gafqK_concat`: the list `l1` with `l2` at its end. -/
def concat (l1 l2 : Int) : CodeM N Int := do
  if l2 = noJump then pure l1
  else if l1 = noJump then pure l2
  else
    let fs ← get
    match lastjump fs (listFuel fs) l1 with
    | none => throw .outOfFuel
    | some last =>
      fixjump last l2
      pure l1

/-- `gafqK_patchtohere` -/
def patchtohere (list : Int) : CodeM N Unit := do
  let _ ← getlabel
  let fs ← get
  let jpc ← concat fs.jpc list
  modify fun fs => { fs with jpc }

/-- `gafqK_patchlist` -/
def patchlist (list target : Int) : CodeM N Unit := do
  let fs ← get
  if target = fs.pc then patchtohere list else patchlistaux list target noReg target

/-! ## Instructions -/

/-- `gafqK_code` -/
def code (i : Instruction) : CodeM N Nat := do
  -- `pc` will change
  dischargejpc
  let fs ← get
  growVector fs.pc maxInt (bytes "code size overflow")
  -- put new instruction in code array and save corresponding line information
  modify fun fs => { fs with
    code := Function.update fs.code fs.pc i, lineinfo := Function.update fs.lineinfo fs.pc fs.lastline, pc := fs.pc + 1 }
  pure fs.pc

/-- `gafqK_codeABC` -/
def codeABC (o : OpCode) (a b c : Int) : CodeM N Nat := code (instrABC o a b c)

/-- `gafqK_codeABx` -/
def codeABx (o : OpCode) (a bc : Int) : CodeM N Nat := code (instrABx o a bc)

/-- `gafqK_codeAsBx` -/
def codeAsBx (o : OpCode) (a sBx : Int) : CodeM N Nat := codeABx o a (sBx + maxArgSBx)

/-- `gafqK_fixline` -/
def fixline (line : Nat) : CodeM N Unit :=
  modify fun fs => { fs with lineinfo := Function.update fs.lineinfo (fs.pc - 1) line }

/-- What `gafqK_nil` can do. -/
inductive NilPlace where
  /-- positions are already clean -/
  | clean
  /-- the previous instruction clears registers up to `pto`, and more can be connected -/
  | connect (pto : Nat)
  /-- no optimization -/
  | explicit

def nilPlace (fs : FuncState N) (first : Int) : NilPlace :=
  -- no jumps to current position?
  if fs.pc > fs.lasttarget then
    -- function start?
    if fs.pc = 0 then
      if first ≥ fs.nactvar then .clean else .explicit
    else
      let previous := fs.code (fs.pc - 1)
      if opcode? previous = some .loadnil then
        let pfrom := getArgA previous
        let pto := getArgB previous
        -- can connect both?
        if pfrom ≤ first ∧ first ≤ pto + 1 then .connect pto else .explicit
      else .explicit
  else .explicit

/-- `gafqK_nil` -/
def codeNil (first n : Int) : CodeM N Unit := do
  let fs ← get
  match nilPlace fs first with
  | .clean => record (.nil fs.pc first n false)
  | .connect pto =>
    record (.nil fs.pc first n false)
    if first + n - 1 > pto then setCode (fs.pc - 1) (setArgB (fs.code (fs.pc - 1)) (first + n - 1))
  | .explicit =>
    let pc ← codeABC .loadnil first (first + n - 1) 0
    record (.nil pc first n true)

/-- `gafqK_jump` -/
def jump : CodeM N Int := do
  let fs ← get
  -- save list of jumps to here
  let jpc := fs.jpc
  modify fun fs => { fs with jpc := noJump }
  let j ← codeAsBx .jmp 0 noJump
  -- keep them on hold
  concat j jpc

/-- `gafqK_ret` -/
def ret (first nret : Int) : CodeM N Unit := do
  let _ ← codeABC .return first (nret + 1) 0

def condjump (op : OpCode) (a b c : Int) : CodeM N Int := do
  let _ ← codeABC op a b c
  jump

/-- `gafqK_setlist` -/
def setlist (base nelems tostore : Int) : CodeM N Unit := do
  let c := (nelems - 1).tdiv lfieldsPerFlush + 1
  let b := if tostore = multRet then 0 else tostore
  if c ≤ 511 then
    let _ ← codeABC .setlist base b c
  else
    let _ ← codeABC .setlist base b 0
    let pc ← code (UInt32.ofNat (castInstruction c))
    record (.count pc)
  -- free registers with list values
  modify fun fs => { fs with freereg := base + 1 }

/-! ## Registers -/

/-- `gafqK_checkstack` -/
def checkstack (n : Int) : CodeM N Unit := do
  let fs ← get
  let newstack := fs.freereg + n
  if newstack > fs.maxstacksize then
    if newstack ≥ maxStack then throw (.syntaxerror (bytes "function or expression too complex"))
    -- `cast_byte`
    modify fun fs => { fs with maxstacksize := (newstack % 256).toNat }

/-- `gafqK_reserveregs` -/
def reserveregs (n : Int) : CodeM N Unit := do
  checkstack n
  modify fun fs => { fs with freereg := fs.freereg + n }

/-- `freereg`: `reg` is a register or a constant. -/
def freereg (reg : Int) : CodeM N Unit := do
  let fs ← get
  if ¬ isK reg.toNat ∧ reg ≥ fs.nactvar then
    modify fun fs => { fs with freereg := fs.freereg - 1 }

end Gafq.Code
