import Gafq.Code.Operators

/-! # The state of the parser

The tokens, the functions that are being compiled and the local variables of `gparser.c`.  The lexer
gives its tokens one after another, each with the line that it has reached with it.
-/

namespace Gafq.Compiler

open Lexer Code
open Gafq.Parser (tok quoted)

variable {N : Type}

/-! ## Tokens -/

/-- `LexState`, with the tokens that the lexer has not returned yet. -/
structure LexState (N : Type) where
  /-- current token -/
  t : Token N
  /-- look ahead token -/
  lookahead : Token N
  /-- input line counter -/
  linenumber : Nat
  /-- line of last token `consumed` -/
  lastline : Nat
  rest : List (Token N × Nat)
  /-- the line of `TK_EOS` -/
  eosLine : Nat
  /-- `L->nCcalls` -/
  nCcalls : Nat
  /-- current function -/
  fs : FuncState N
  /-- enclosing functions, innermost first -/
  prev : List (FuncState N)
  /-- the address of the next table of constants -/
  address : Nat
  /-- the functions that `close_func` has finished -/
  closed : List (FuncState N)

inductive CompileError where
  /-- `gafqX_lexerror`: the line, the message and the token it is near to -/
  | lexerror (line : Nat) (msg : TString) (token : Nat)
  | runerror (msg : TString)
  | constants (e : CodeError)
  | outOfFuel
deriving DecidableEq, Repr

abbrev CompileM (N : Type) := EStateM CompileError (LexState N)

/-- An error of the code generator, as the lexer reports it. -/
def locate (ls : LexState N) : GenError → CompileError
  | .syntaxerror msg => .lexerror ls.linenumber msg ls.t.token
  | .lexerror msg => .lexerror ls.linenumber msg 0
  | .runerror msg => .runerror msg
  | .constants e => .constants e
  | .outOfFuel => .outOfFuel

/-- A call of the code generator for the current function. -/
def gen {α : Type} (m : CodeM N α) : CompileM N α := fun ls =>
  match m { ls.fs with lastline := ls.lastline } with
  | .ok a fs => .ok a { ls with fs }
  | .error e fs => .error (locate ls e) { ls with fs }

/-- `gafqX_syntaxerror` -/
def syntaxerror {α : Type} (msg : TString) : CompileM N α := do
  let ls ← get
  throw (.lexerror ls.linenumber msg ls.t.token)

section

variable [GafqNumber N] (env : Env N)

/-- `gafqX_newstring` -/
def newString (s : TString) : CompileM N Unit := gen (onConstants (newstring env.mp (env.intern s)))

/-- The string that the lexer makes for a token. -/
def tokenString (t : Token N) : Option TString :=
  if t.token = tkName ∨ t.token = tkString then
    match t.seminfo with
    | .ts s => some s
    | .r _ => none
  else if firstReserved ≤ t.token ∧ t.token < firstReserved + numReserved then
    (tokens[t.token - firstReserved]?).map bytes
  else none

/-- The token at the end of the stream. -/
def eosToken : Token N := ⟨tkEos, .r (castNum 0)⟩

/-- `glex` -/
def glex : CompileM N (Token N) := do
  let ls ← get
  match ls.rest with
  | [] =>
    set { ls with linenumber := ls.eosLine }
    pure eosToken
  | (t, line) :: rest =>
    set { ls with linenumber := line, rest }
    match tokenString t with
    | some s => newString env s
    | none => pure ()
    pure t

/-- `gafqX_next` -/
def next : CompileM N Unit := do
  modify fun ls => { ls with lastline := ls.linenumber }
  let ls ← get
  -- is there a look-ahead token? use this one
  if ls.lookahead.token ≠ tkEos then
    -- and discharge it
    set { ls with t := ls.lookahead, lookahead := eosToken }
  else
    let t ← glex env
    modify fun ls => { ls with t }

/-- `gafqX_lookahead` -/
def lookahead : CompileM N Unit := do
  let t ← glex env
  modify fun ls => { ls with lookahead := t }

/-- `ls->t.token` -/
def token : CompileM N Nat := do
  let ls ← get
  pure ls.t.token

def errorExpected {α : Type} (what : Nat) : CompileM N α := syntaxerror (quoted (token2str what) ++ bytes " expected")

def testnext (c : Nat) : CompileM N Bool := do
  if (← token) = c then
    next env
    pure true
  else pure false

def check (c : Nat) : CompileM N Unit := do
  if (← token) ≠ c then errorExpected c

def checknext (c : Nat) : CompileM N Unit := do
  check c
  next env

/-- `check_match` -/
def checkMatch (what who line : Nat) : CompileM N Unit := do
  if ¬ (← testnext env what) then
    let ls ← get
    if line = ls.linenumber then errorExpected what
    else syntaxerror (quoted (token2str what) ++ bytes " expected (to close " ++ quoted (token2str who) ++
      bytes (" at line " ++ toString line ++ ")"))

/-- The string of the current token. -/
def LexState.string (ls : LexState N) : TString :=
  match ls.t.seminfo with
  | .ts s => s
  | .r _ => []

/-- `str_checkname` -/
def strCheckname : CompileM N TString := do
  check tkName
  let ls ← get
  next env
  pure ls.string

def codestring (s : TString) : CompileM N (ExpDesc N) := do
  let k ← gen (onConstants (stringK env.mp (env.intern s)))
  pure (initExp .vk k)

def checkname : CompileM N (ExpDesc N) := do
  let s ← strCheckname env
  codestring env s

end

/-! ## Limits -/

/-- `GAFQI_MAXVARS` -/
def maxVars : Nat := 200

/-- `GAFQI_MAXUPVALUES` -/
def maxUpvalues : Nat := 60

/-- `SHRT_MAX` -/
def shrtMax : Nat := 32767

/-- The message of `errorlimit`. -/
def limitMessage (fs : FuncState N) (limit : Int) (what : TString) : TString :=
  (if fs.linedefined = 0 then bytes ("main function has more than " ++ toString limit ++ " ")
  else bytes ("function at line " ++ toString fs.linedefined ++ " has more than " ++ toString limit ++ " ")) ++ what

/-- `gafqY_checklimit` -/
def checklimit (v limit : Int) (what : TString) : CodeM N Unit := do
  let fs ← get
  if v > limit then throw (.lexerror (limitMessage fs limit what))

/-! ## Local variables -/

/-- The index in `locvars` of an active variable. -/
def getlocvar (fs : FuncState N) (i : Nat) : LocVar := fs.locvars.getD (fs.actvar i) ⟨none, 0, 0⟩

def modifyLocvar (i : Nat) (f : LocVar → LocVar) (fs : FuncState N) : FuncState N :=
  { fs with locvars := fs.locvars.modify (fs.actvar i) f }

def registerlocalvar (varname : TString) : CodeM N Nat := do
  let fs ← get
  growVector fs.locvars.length shrtMax (bytes "too many local variables")
  let v : LocVar := ⟨some varname, 0, 0⟩
  set { fs with locvars := fs.locvars ++ [v] }
  pure fs.locvars.length

/-- `new_localvar` -/
def newLocalvar (name : TString) (n : Nat) : CodeM N Unit := do
  let fs ← get
  checklimit (fs.nactvar + n + 1 : Nat) maxVars (bytes "local variables")
  let i ← registerlocalvar name
  modify fun fs => { fs with actvar := Function.update fs.actvar (fs.nactvar + n) (i % 65536) }

/-- The loop of `adjustlocalvars`: the last `nvars` active variables start here. -/
def startVars : (nvars : Nat) → FuncState N → FuncState N
  | 0, fs => fs
  | nvars + 1, fs => startVars nvars (modifyLocvar (fs.nactvar - (nvars + 1)) (fun v => { v with startpc := fs.pc }) fs)

def adjustlocalvars (nvars : Nat) : CodeM N Unit :=
  -- `cast_byte`
  modify fun fs => startVars nvars { fs with nactvar := (fs.nactvar + nvars) % 256 }

/-- The loop of `removevars`: `left` variables more are removed. -/
def endVars : (left : Nat) → FuncState N → FuncState N
  | 0, fs => fs
  | left + 1, fs => endVars left (modifyLocvar (fs.nactvar - 1) (fun v => { v with endpc := fs.pc }) { fs with nactvar := fs.nactvar - 1 })

def removevars (tolevel : Nat) : CodeM N Unit := modify fun fs => endVars (fs.nactvar - tolevel) fs

/-! ## Variables of enclosing functions -/

/-- The upvalue `i` that `indexupvalue` finds. -/
def findUpvalue (upvalues : List UpvalDesc) (k : ExpKind) (info : Int) : Option Nat :=
  upvalues.findIdx? fun u => u.k = k ∧ (u.info : Int) = info

def indexupvalue (name : TString) (k : ExpKind) (info : Int) : CodeM N Nat := do
  let fs ← get
  match findUpvalue fs.upvalues k info with
  | some i => pure i
  | none =>
    -- new one
    checklimit (fs.upvalues.length + 1 : Nat) maxUpvalues (bytes "upvalues")
    growVector fs.upvalues.length maxInt []
    let u : UpvalDesc := ⟨k, (info % 256).toNat, name⟩
    set { fs with upvalues := fs.upvalues ++ [u] }
    pure fs.upvalues.length

/-- `searchvar`, among the first `i` active variables. -/
def searchvarFrom (fs : FuncState N) (n : TString) : (i : Nat) → Option Nat
  | 0 => none
  | i + 1 => if (getlocvar fs i).varname = some n then some i else searchvarFrom fs n i

def searchvar (fs : FuncState N) (n : TString) : Option Nat := searchvarFrom fs n fs.nactvar

def markBlocks (level : Nat) : List BlockCnt → List BlockCnt
  | [] => []
  | bl :: previous =>
    if bl.nactvar > level then bl :: markBlocks level previous else { bl with upval := true } :: previous

def markupval (level : Nat) (fs : FuncState N) : FuncState N := { fs with bl := markBlocks level fs.bl }

/-- `singlevaraux` in the functions `fs`, innermost first: the kind and the place of the variable. -/
def singlevaraux (n : TString) : (base : Bool) → (fs : List (FuncState N)) → Except GenError ((ExpKind × Int) × List (FuncState N))
  -- no more levels? default is global variable
  | _, [] => .ok ((.vglobal, noReg), [])
  | base, fs :: prev =>
    -- look up at current level
    match searchvar fs n with
    -- local will be used as an upval
    | some v => .ok ((.vlocal, v), (if base then fs else markupval v fs) :: prev)
    -- not found at current level; try upper one
    | none =>
      match singlevaraux n false prev with
      | .error e => .error e
      | .ok ((.vglobal, info), prev) => .ok ((.vglobal, info), fs :: prev)
      -- else was LOCAL or UPVAL
      | .ok ((k, info), prev) =>
        match indexupvalue n k info fs with
        | .ok i fs => .ok ((.vupval, i), fs :: prev)
        | .error e _ => .error e

section

variable [GafqNumber N] (env : Env N)

def singlevar : CompileM N (ExpDesc N) := do
  let varname ← strCheckname env
  let ls ← get
  match singlevaraux varname true (ls.fs :: ls.prev) with
  | .ok ((k, info), fs :: prev) =>
    set { ls with fs, prev }
    if k = .vglobal then
      -- info points to global name
      let info ← gen (onConstants (stringK env.mp (env.intern varname)))
      pure (initExp k info)
    else pure (initExp k info)
  | .ok (_, []) => throw .outOfFuel
  | .error e => throw (locate ls e)

def adjustAssign (nvars nexps : Int) (e : ExpDesc N) : CodeM N Unit := do
  let extra := nvars - nexps
  if e.hasmultret then
    -- includes call itself
    let extra := max (extra + 1) 0
    -- last exp. provides the difference
    setreturns e extra
    if extra > 1 then reserveregs (extra - 1)
  else
    -- close last expression
    if e.k ≠ .vvoid then
      let _ ← exp2nextreg env e
    if extra > 0 then
      let fs ← get
      reserveregs extra
      codeNil fs.freereg extra

end

/-- `GAFQI_MAXCCALLS` levels of syntax. -/
def enterlevel : CompileM N Unit := do
  modify fun ls => { ls with nCcalls := ls.nCcalls + 1 }
  let ls ← get
  if ls.nCcalls > maxCCalls then throw (.lexerror ls.linenumber (bytes "chunk has too many syntax levels") 0)

def leavelevel : CompileM N Unit := modify fun ls => { ls with nCcalls := ls.nCcalls - 1 }

/-! ## Blocks and functions -/

def enterblock (isbreakable : Bool) : CodeM N Unit :=
  modify fun fs => { fs with bl := ⟨noJump, fs.nactvar, false, isbreakable⟩ :: fs.bl }

def leaveblock : CodeM N Unit := do
  let fs ← get
  match fs.bl with
  | [] => throw .outOfFuel
  | bl :: previous =>
    set { fs with bl := previous }
    removevars bl.nactvar
    if bl.upval then
      let _ ← codeABC .close bl.nactvar 0 0
    -- free registers
    modify fun fs => { fs with freereg := fs.nactvar }
    patchtohere bl.breaklist

/-- The code of a closure's upvalues. -/
def codeUpvalues : List UpvalDesc → CodeM N Unit
  | [] => pure ()
  | u :: us => do
    let _ ← codeABC (if u.k = .vlocal then .move else .getupval) 0 u.info 0
    codeUpvalues us

section

variable [GafqNumber N] (env : Env N)

/-- `pushclosure`: the function has been closed. -/
def pushclosure (f : Proto) (func : FuncState N) : CodeM N (ExpDesc N) := do
  let fs ← get
  growVector fs.p.length maxArgBx (bytes "constant table overflow")
  set { fs with p := fs.p ++ [f] }
  let info ← codeABx .closure 0 fs.p.length
  codeUpvalues func.upvalues
  pure (initExp .vrelocable info)

/-- The state of `open_func`. -/
def newFuncState (address : Nat) : FuncState N where
  constants := newConstants address
  code := fun _ => 0
  lineinfo := fun _ => 0
  pc := 0
  lasttarget := -1
  jpc := noJump
  freereg := 0
  nactvar := 0
  -- registers 0/1 are always valid
  maxstacksize := 2
  bl := []
  p := []
  locvars := []
  actvar := fun _ => 0
  upvalues := []
  numparams := 0
  isVararg := 0
  linedefined := 0
  lastlinedefined := 0
  lastline := 0
  events := []

def openFunc : CompileM N Unit :=
  modify fun ls => { ls with fs := newFuncState ls.address, prev := ls.fs :: ls.prev, address := ls.address + 1 }

/-- A constant, for the function prototype. -/
def constant (v : TValue N) : Constant :=
  match v with
  | .boolean b => .boolean b
  | .number n => .number (env.image n)
  | .string s => .string (some (env.text s))
  | _ => .nil

/-- The prototype of a function that has been compiled. -/
def proto (fs : FuncState N) : Proto where
  k := (List.range fs.constants.nk).map fun i => constant env (fs.constants.k i)
  code := (List.range fs.pc).map fs.code
  p := fs.p
  lineinfo := (List.range fs.pc).map fs.lineinfo
  locvars := fs.locvars
  upvalues := fs.upvalues.map fun u => some u.name
  source := some env.source
  linedefined := fs.linedefined
  lastlinedefined := fs.lastlinedefined
  nups := UInt8.ofNat fs.upvalues.length
  numparams := UInt8.ofNat fs.numparams
  isVararg := UInt8.ofNat fs.isVararg
  maxstacksize := UInt8.ofNat fs.maxstacksize

/-- `anchor_token` -/
def anchorToken : CompileM N Unit := do
  let ls ← get
  if ls.t.token = tkName ∨ ls.t.token = tkString then newString env ls.string

/-- `close_func`: the function that is finished. -/
def closeFunc : CompileM N (FuncState N) := do
  gen (removevars 0)
  -- final return
  gen (ret 0 0)
  let ls ← get
  match ls.prev with
  | [] => set { ls with closed := ls.closed ++ [ls.fs] }
  | fs :: prev =>
    set { ls with fs, prev, closed := ls.closed ++ [ls.fs] }
    -- last token read was anchored in defunct function; must reanchor it
    anchorToken env
  pure ls.fs

end

end Gafq.Compiler
