import Gafq.Code.Generator

/-! # Code for expressions

The part of `gcode.c` that works on expression descriptors.  A function that changes a descriptor
returns the new one.
-/

namespace Gafq.Code

open Lexer

/-- An expression descriptor; `nval` is the number of a `VKNUM`. -/
structure ExpDesc (N : Type) where
  k : ExpKind
  info : Int
  aux : Int
  nval : N
  /-- patch list of `exit when true` -/
  t : Int
  /-- patch list of `exit when false` -/
  f : Int

variable {N : Type}

section

variable [GafqNumber N]

/-- `init_exp` -/
def initExp (k : ExpKind) (i : Int) : ExpDesc N := ⟨k, i, 0, castNum 0, noJump, noJump⟩

end

/-- `hasmultret` -/
def ExpDesc.hasmultret (e : ExpDesc N) : Prop := e.k = .vcall ∨ e.k = .vvararg

instance (e : ExpDesc N) : Decidable e.hasmultret := inferInstanceAs (Decidable (_ ∨ _))

def ExpDesc.hasjumps (e : ExpDesc N) : Prop := e.t ≠ e.f

instance (e : ExpDesc N) : Decidable e.hasjumps := inferInstanceAs (Decidable (_ ≠ _))

def ExpDesc.isnumeral (e : ExpDesc N) : Prop := e.k = .vknum ∧ e.t = noJump ∧ e.f = noJump

instance (e : ExpDesc N) : Decidable e.isnumeral := inferInstanceAs (Decidable (_ ∧ _))

/-- `freeexp` -/
def freeexp (e : ExpDesc N) : CodeM N Unit := if e.k = .vnonreloc then freereg e.info else pure ()

/-- What the code generator gets from elsewhere. -/
structure Env (N : Type) [GafqNumber N] where
  mp : MainPosition N
  arithmetic : Arithmetic N
  /-- the address of an interned string -/
  intern : TString → Nat
  /-- the string at an address -/
  text : Nat → TString
  /-- the memory image of a number -/
  image : N → List UInt8
  /-- the name of the chunk -/
  source : TString

/-- `getcode(fs, e)` -/
def getcode (fs : FuncState N) (e : ExpDesc N) : Instruction := fs.code e.info.toNat

/-- Change the instruction of an expression. -/
def modifyCode (e : ExpDesc N) (f : Instruction → Instruction) : CodeM N Unit := do
  let fs ← get
  setCode e.info.toNat (f (getcode fs e))

/-- `gafqK_setreturns` -/
def setreturns (e : ExpDesc N) (nresults : Int) : CodeM N Unit :=
  -- expression is an open function call?
  if e.k = .vcall then modifyCode e fun i => setArgC i (nresults + 1)
  else if e.k = .vvararg then do
    modifyCode e fun i => setArgB i (nresults + 1)
    let fs ← get
    modifyCode e fun i => setArgA i fs.freereg
    reserveregs 1
  else pure ()

/-- `gafqK_setoneret` -/
def setoneret (e : ExpDesc N) : CodeM N (ExpDesc N) :=
  -- expression is an open function call?
  if e.k = .vcall then do
    let fs ← get
    pure { e with k := .vnonreloc, info := getArgA (getcode fs e) }
  else if e.k = .vvararg then do
    modifyCode e fun i => setArgB i 2
    -- can relocate its simple result
    pure { e with k := .vrelocable }
  else pure e

/-- `gafqK_dischargevars` -/
def dischargevars (e : ExpDesc N) : CodeM N (ExpDesc N) :=
  match e.k with
  | .vlocal => pure { e with k := .vnonreloc }
  | .vupval => do
    let info ← codeABC .getupval 0 e.info 0
    pure { e with k := .vrelocable, info }
  | .vglobal => do
    let info ← codeABx .getglobal 0 e.info
    pure { e with k := .vrelocable, info }
  | .vindexed => do
    freereg e.aux
    freereg e.info
    let info ← codeABC .gettable 0 e.info e.aux
    pure { e with k := .vrelocable, info }
  | .vvararg | .vcall => setoneret e
  -- there is one value available (somewhere)
  | _ => pure e

/-- `code_label` -/
def codeLabel (a b jump : Int) : CodeM N Nat := do
  -- those instructions may be jump targets
  let _ ← getlabel
  codeABC .loadbool a b jump

def onConstants {α : Type} (m : ConstantsM N α) : CodeM N α := fun fs =>
  match m fs.constants with
  | .ok a constants => .ok a { fs with constants }
  | .error e constants => .error (.constants e) { fs with constants }

section

variable [GafqNumber N] (env : Env N)

def discharge2reg (e : ExpDesc N) (reg : Int) : CodeM N (ExpDesc N) := do
  let e ← dischargevars e
  match e.k with
  | .vnil =>
    codeNil reg 1
    pure { e with info := reg, k := .vnonreloc }
  | .vfalse | .vtrue =>
    let _ ← codeABC .loadbool reg (if e.k = .vtrue then 1 else 0) 0
    pure { e with info := reg, k := .vnonreloc }
  | .vk =>
    let _ ← codeABx .loadk reg e.info
    pure { e with info := reg, k := .vnonreloc }
  | .vknum =>
    let k ← onConstants (numberK env.mp e.nval)
    let _ ← codeABx .loadk reg k
    pure { e with info := reg, k := .vnonreloc }
  | .vrelocable =>
    modifyCode e fun i => setArgA i reg
    pure { e with info := reg, k := .vnonreloc }
  | .vnonreloc =>
    if reg ≠ e.info then
      let _ ← codeABC .move reg e.info 0
      pure { e with info := reg, k := .vnonreloc }
    else pure { e with info := reg, k := .vnonreloc }
  -- nothing to do...
  | _ => pure e

def discharge2anyreg (e : ExpDesc N) : CodeM N (ExpDesc N) :=
  if e.k ≠ .vnonreloc then do
    reserveregs 1
    let fs ← get
    discharge2reg env e (fs.freereg - 1)
  else pure e

/-- The instructions of `exp2reg` that produce a value where a jump does not; the positions of an eventual
`LOAD` of false and of true. -/
def codeLoads (isJump : Bool) (reg : Int) : CodeM N (Int × Int) := do
  let fj ← if isJump then pure noJump else jump
  let pF ← codeLabel reg 0 1
  let pT ← codeLabel reg 1 0
  patchtohere fj
  pure (pF, pT)

/-- The lists of an expression whose value goes to `reg`. -/
def closeLists (e : ExpDesc N) (reg : Int) : CodeM N Unit := do
  let needT ← needvalue e.t
  let need ← if needT then pure true else needvalue e.f
  let (pF, pT) ← if need then codeLoads (e.k = .vjmp) reg else pure (noJump, noJump)
  -- position after whole expression
  let final ← getlabel
  patchlistaux e.f final reg pF
  patchlistaux e.t final reg pT

def exp2reg (e : ExpDesc N) (reg : Int) : CodeM N (ExpDesc N) := do
  let e ← discharge2reg env e reg
  -- put this jump in `t` list
  let t ← if e.k = .vjmp then concat e.t e.info else pure e.t
  let e := { e with t }
  if e.hasjumps then closeLists e reg
  pure { e with f := noJump, t := noJump, info := reg, k := .vnonreloc }

/-- `gafqK_exp2nextreg` -/
def exp2nextreg (e : ExpDesc N) : CodeM N (ExpDesc N) := do
  let e ← dischargevars e
  freeexp e
  reserveregs 1
  let fs ← get
  exp2reg env e (fs.freereg - 1)

/-- `gafqK_exp2anyreg`; the result is in the register `info`. -/
def exp2anyreg (e : ExpDesc N) : CodeM N (ExpDesc N) := do
  let e ← dischargevars e
  let fs ← get
  -- exp is already in a register
  if e.k = .vnonreloc ∧ ¬ e.hasjumps then pure e
  -- reg. is not a local: put value on it
  else if e.k = .vnonreloc ∧ e.info ≥ fs.nactvar then exp2reg env e e.info
  -- default
  else exp2nextreg env e

/-- `gafqK_exp2val` -/
def exp2val (e : ExpDesc N) : CodeM N (ExpDesc N) := if e.hasjumps then exp2anyreg env e else dischargevars e

/-- `MAXINDEXRK` -/
def maxIndexRK : Nat := bitRK - 1

/-- `RKASK` -/
def rkAsK (x : Int) : Int := ((x.toNat ||| bitRK : Nat) : Int)

/-- The index of a simple constant. -/
def constantK (e : ExpDesc N) : CodeM N Int :=
  onConstants <| match e.k with
    | .vnil => nilK env.mp
    | .vknum => numberK env.mp e.nval
    | _ => boolK env.mp (e.k = .vtrue)

/-- The last line of `gafqK_exp2RK`: not a constant in the right range, put it in a register. -/
def exp2register (e : ExpDesc N) : CodeM N (ExpDesc N × Int) := do
  let e ← exp2anyreg env e
  pure (e, e.info)

/-- `gafqK_exp2RK` -/
def exp2RK (e : ExpDesc N) : CodeM N (ExpDesc N × Int) := do
  let e ← exp2val env e
  let fs ← get
  match e.k with
  | .vknum | .vtrue | .vfalse | .vnil =>
    -- constant fit in RK operand?
    if fs.constants.nk ≤ maxIndexRK then
      let info ← constantK env e
      pure ({ e with info, k := .vk }, rkAsK info)
    else exp2register env e
  | .vk =>
    -- constant fit in argC?
    if e.info ≤ maxIndexRK then pure (e, rkAsK e.info) else exp2register env e
  | _ => exp2register env e

/-- `gafqK_storevar` -/
def storevar (var ex : ExpDesc N) : CodeM N Unit :=
  match var.k with
  | .vlocal => do
    freeexp ex
    let _ ← exp2reg env ex var.info
  | .vupval => do
    let ex ← exp2anyreg env ex
    let _ ← codeABC .setupval ex.info var.info 0
    freeexp ex
  | .vglobal => do
    let ex ← exp2anyreg env ex
    let _ ← codeABx .setglobal ex.info var.info
    freeexp ex
  | .vindexed => do
    let (ex, e) ← exp2RK env ex
    let _ ← codeABC .settable var.info var.aux e
    freeexp ex
  -- invalid var kind to store
  | _ => freeexp ex

/-- `gafqK_self` -/
def self (e key : ExpDesc N) : CodeM N (ExpDesc N) := do
  let e ← exp2anyreg env e
  freeexp e
  let func := (← get).freereg
  reserveregs 2
  let (key, k) ← exp2RK env key
  let _ ← codeABC .self func e.info k
  freeexp key
  pure { e with info := func, k := .vnonreloc }

/-- `invertjump` -/
def invertjump (e : ExpDesc N) : CodeM N Unit := do
  let fs ← get
  let pc := getjumpcontrol fs e.info
  setCode pc (setArgA (fs.code pc) (if getArgA (fs.code pc) = 0 then 1 else 0))

/-- `jumponcond`; the position of the jump. -/
def jumponcond (e : ExpDesc N) (cond : Bool) : CodeM N Int := do
  let fs ← get
  let ie := getcode fs e
  if e.k = .vrelocable ∧ opcode? ie = some .not then
    -- remove previous OP_NOT
    modify fun fs => { fs with pc := fs.pc - 1 }
    condjump .test (getArgB ie) 0 (if cond then 0 else 1)
  else
    let e ← discharge2anyreg env e
    freeexp e
    condjump .testset noReg e.info (if cond then 1 else 0)

/-- `gafqK_goiftrue` -/
def goiftrue (e : ExpDesc N) : CodeM N (ExpDesc N) := do
  let e ← dischargevars e
  -- pc of last jump
  let pc ← match e.k with
    -- always true; do nothing
    | .vk | .vknum | .vtrue => pure noJump
    | .vjmp => do
      invertjump e
      pure e.info
    | _ => jumponcond env e false
  -- insert last jump in `f` list
  let f ← concat e.f pc
  patchtohere e.t
  pure { e with f, t := noJump }

/-- `gafqK_goiffalse` -/
def goiffalse (e : ExpDesc N) : CodeM N (ExpDesc N) := do
  let e ← dischargevars e
  -- pc of last jump
  let pc ← match e.k with
    -- always false; do nothing
    | .vnil | .vfalse => pure noJump
    | .vjmp => pure e.info
    | _ => jumponcond env e true
  -- insert last jump in `t` list
  let t ← concat e.t pc
  patchtohere e.f
  pure { e with t, f := noJump }

/-- The cases of `codenot`. -/
def negate (e : ExpDesc N) : CodeM N (ExpDesc N) :=
  match e.k with
  | .vnil | .vfalse => pure { e with k := .vtrue }
  | .vk | .vknum | .vtrue => pure { e with k := .vfalse }
  | .vjmp => do
    invertjump e
    pure e
  | .vrelocable | .vnonreloc => do
    let e ← discharge2anyreg env e
    freeexp e
    let info ← codeABC .not 0 e.info 0
    pure { e with info, k := .vrelocable }
  -- cannot happen
  | _ => pure e

def codenot (e : ExpDesc N) : CodeM N (ExpDesc N) := do
  let e ← dischargevars e
  let e ← negate env e
  -- interchange true and false lists
  let e := { e with f := e.t, t := e.f }
  removevalues e.f
  removevalues e.t
  pure e

/-- `gafqK_indexed` -/
def indexed (t k : ExpDesc N) : CodeM N (ExpDesc N) := do
  let (_, aux) ← exp2RK env k
  pure { t with aux, k := .vindexed }

/-- `constfolding` of two descriptors: the new first one. -/
def foldExp (op : OpCode) (e1 e2 : ExpDesc N) : Option (ExpDesc N) :=
  if e1.isnumeral ∧ e2.isnumeral then
    (constfolding env.arithmetic op e1.nval e2.nval).map fun r => { e1 with nval := r }
  else none

def codearith (op : OpCode) (e1 e2 : ExpDesc N) : CodeM N (ExpDesc N) :=
  match foldExp env op e1 e2 with
  | some e1 => pure e1
  | none => do
    let (e2, o2) ← if op ≠ .unm ∧ op ≠ .len then exp2RK env e2 else pure (e2, 0)
    let (e1, o1) ← exp2RK env e1
    if o1 > o2 then
      freeexp e1
      freeexp e2
    else
      freeexp e2
      freeexp e1
    let info ← codeABC op 0 o1 o2
    pure { e1 with info, k := .vrelocable }

def codecomp (op : OpCode) (cond : Bool) (e1 e2 : ExpDesc N) : CodeM N (ExpDesc N) := do
  let (e1, o1) ← exp2RK env e1
  let (e2, o2) ← exp2RK env e2
  freeexp e2
  freeexp e1
  let info ←
    -- exchange args to replace by `<' or `<='
    if cond = false ∧ op ≠ .eq then condjump op 1 o2 o1
    else condjump op (if cond then 1 else 0) o1 o2
  pure { e1 with info, k := .vjmp }

end

end Gafq.Code
