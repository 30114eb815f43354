import Gafq.Compiler.Scope

/-! # The grammar

The grammar rules of `gparser.c`.  Rules call each other through `subexpr` and `chunk`, which count the
levels of syntax, so a rule takes these two as parameters; `fuel` bounds the loops over the tokens.
-/

namespace Gafq.Compiler

open Lexer Code
open Gafq.Parser (tok quoted getunopr getbinopr leftPriority rightPriority unaryPriority BinOpr tkAnd tkFalse tkFunction tkNil tkNot
  tkOr tkTrue)

/-! ## Reserved words -/

def tkBreak : Nat := 258
def tkDo : Nat := 259
def tkElse : Nat := 260
def tkElseif : Nat := 261
def tkEnd : Nat := 262
def tkFor : Nat := 264
def tkIf : Nat := 266
def tkIn : Nat := 267
def tkLocal : Nat := 268
def tkRepeat : Nat := 272
def tkReturn : Nat := 273
def tkThen : Nat := 274
def tkUntil : Nat := 276
def tkWhile : Nat := 277

variable {N : Type}

/-- The recursive rules. -/
structure Rules (N : Type) where
  /-- `subexpr`, with the first untreated operator -/
  subexpr : (limit : Nat) → CompileM N (ExpDesc N × Option BinOpr)
  chunk : CompileM N Unit

variable [GafqNumber N] (env : Env N) (fuel : Nat) (rules : Rules N)

def expr : CompileM N (ExpDesc N) := Prod.fst <$> rules.subexpr 0

def field (v : ExpDesc N) : CompileM N (ExpDesc N) := do
  let v ← gen (exp2anyreg env v)
  -- skip the dot or colon
  next env
  let key ← checkname env
  gen (indexed env v key)

def yindex : CompileM N (ExpDesc N) := do
  -- skip the '['
  next env
  let v ← expr rules
  let v ← gen (exp2val env v)
  checknext env (tok ']')
  pure v

/-! ## Constructors -/

structure ConsControl (N : Type) where
  /-- last list item read -/
  v : ExpDesc N
  /-- table descriptor -/
  t : ExpDesc N
  /-- total number of `record` elements -/
  nh : Nat
  /-- total number of array elements -/
  na : Nat
  /-- number of array elements pending to be stored -/
  tostore : Nat

/-- The key of a record field. -/
def recKey (cc : ConsControl N) : CompileM N (ExpDesc N) := do
  if (← token) = tkName then
    gen (checklimit cc.nh maxInt (bytes "items in a constructor"))
    checkname env
  else yindex env rules

def recfield (cc : ConsControl N) : CompileM N (ConsControl N) := do
  let reg := (← get).fs.freereg
  let key ← recKey env rules cc
  checknext env (tok '=')
  let (_, rkkey) ← gen (exp2RK env key)
  let val ← expr rules
  let (_, rkval) ← gen (exp2RK env val)
  let _ ← gen (codeABC .settable cc.t.info rkkey rkval)
  -- free registers
  gen (modify fun fs => { fs with freereg := reg })
  pure { cc with nh := cc.nh + 1 }

def closelistfield (cc : ConsControl N) : CodeM N (ConsControl N) := do
  -- there is no list item
  if cc.v.k = .vvoid then pure cc
  else
    let v ← exp2nextreg env cc.v
    let cc := { cc with v := { v with k := .vvoid } }
    if cc.tostore = lfieldsPerFlush then
      -- flush; no more items pending
      setlist cc.t.info cc.na cc.tostore
      pure { cc with tostore := 0 }
    else pure cc

def lastlistfield (cc : ConsControl N) : CodeM N (ConsControl N) := do
  if cc.tostore = 0 then pure cc
  else if cc.v.hasmultret then
    setreturns cc.v multRet
    setlist cc.t.info cc.na multRet
    -- do not count last expression (unknown number of elements)
    pure { cc with na := cc.na - 1 }
  else
    if cc.v.k ≠ .vvoid then
      let _ ← exp2nextreg env cc.v
    setlist cc.t.info cc.na cc.tostore
    pure cc

def listfield (cc : ConsControl N) : CompileM N (ConsControl N) := do
  let v ← expr rules
  gen (checklimit cc.na maxInt (bytes "items in a constructor"))
  pure { cc with v, na := cc.na + 1, tostore := cc.tostore + 1 }

/-- One item of a constructor. -/
def consItem (cc : ConsControl N) : CompileM N (ConsControl N) := do
  let t ← token
  if t = tkName then
    -- may be listfields or recfields
    lookahead env
    -- expression?
    if (← get).lookahead.token ≠ tok '=' then listfield rules cc else recfield env rules cc
  else if t = tok '[' then recfield env rules cc
  else listfield rules cc

/-- The loop of `constructor`. -/
def consLoop : (fuel : Nat) → ConsControl N → CompileM N (ConsControl N)
  | 0, _ => throw .outOfFuel
  | fuel + 1, cc => do
    if (← token) = tok '\x7d' then pure cc
    else
      let cc ← gen (closelistfield env cc)
      let cc ← consItem env rules cc
      let more ← if ← testnext env (tok ',') then pure true else testnext env (tok ';')
      if more then consLoop fuel cc else pure cc

/-- The loop of `gafqO_int2fb`. -/
def int2fbLoop : (fuel : Nat) → (x e : Nat) → Nat × Nat
  | 0, x, e => (x, e)
  | fuel + 1, x, e => if x ≥ 16 then int2fbLoop fuel ((x + 1) >>> 1) (e + 1) else (x, e)

/-- `gafqO_int2fb` -/
def int2fb (x : Nat) : Nat :=
  let (x, e) := int2fbLoop 32 x 0
  if x < 8 then x else ((e + 1) <<< 3) ||| (x - 8)

def constructor : CompileM N (ExpDesc N) := do
  let line := (← get).linenumber
  let pc ← gen (codeABC .newtable 0 0 0)
  -- fix it at stack top (for gc)
  let t ← gen (exp2nextreg env (initExp .vrelocable pc))
  checknext env (tok '\x7b')
  -- no value (yet)
  let cc ← consLoop env rules fuel ⟨initExp .vvoid 0, t, 0, 0, 0⟩
  checkMatch env (tok '\x7d') (tok '\x7b') line
  let cc ← gen (lastlistfield env cc)
  let fs := (← get).fs
  -- set initial array size, set initial table size
  gen (setCode pc (setArgC (setArgB (fs.code pc) (int2fb cc.na)) (int2fb cc.nh)))
  pure t

/-! ## Function bodies -/

/-- The loop of `parlist`; the number of parameters. -/
def parLoop : (fuel : Nat) → (nparams : Nat) → CompileM N Nat
  | 0, _ => throw .outOfFuel
  | fuel + 1, nparams => do
    let t ← token
    if t = tkName then
      -- param -> NAME
      let name ← strCheckname env
      gen (newLocalvar name nparams)
      if ← testnext env (tok ',') then parLoop fuel (nparams + 1) else pure (nparams + 1)
    else if t = tkDots then
      -- param -> `...`
      next env
      -- use `arg` as default name
      newString env (bytes "arg")
      gen (newLocalvar (bytes "arg") nparams)
      gen (modify fun fs => { fs with isVararg := varargHasArg ||| varargNeedsArg ||| varargIsVararg })
      pure (nparams + 1)
    else syntaxerror (bytes "<name> or " ++ quoted (bytes "...") ++ bytes " expected")

def parlist : CompileM N Unit := do
  gen (modify fun fs => { fs with isVararg := 0 })
  let nparams ← if (← token) ≠ tok ')' then parLoop env fuel 0 else pure 0
  gen (adjustlocalvars nparams)
  gen (modify fun fs => { fs with numparams := fs.nactvar - (fs.isVararg &&& varargHasArg) })
  -- reserve register for parameters
  let fs := (← get).fs
  gen (reserveregs fs.nactvar)

def body (needself : Bool) (line : Nat) : CompileM N (ExpDesc N) := do
  openFunc
  gen (modify fun fs => { fs with linedefined := line })
  checknext env (tok '(')
  if needself then
    newString env (bytes "self")
    gen (newLocalvar (bytes "self") 0)
    gen (adjustlocalvars 1)
  parlist env fuel
  checknext env (tok ')')
  rules.chunk
  let linenumber := (← get).linenumber
  gen (modify fun fs => { fs with lastlinedefined := linenumber })
  checkMatch env tkEnd tkFunction line
  let func ← closeFunc env
  gen (pushclosure (proto env func) func)

/-- The loop of `explist1`. -/
def explistLoop : (fuel : Nat) → (v : ExpDesc N) → (n : Nat) → CompileM N (ExpDesc N × Nat)
  | 0, _, _ => throw .outOfFuel
  | fuel + 1, v, n => do
    if ← testnext env (tok ',') then
      let _ ← gen (exp2nextreg env v)
      let v ← expr rules
      explistLoop fuel v (n + 1)
    else pure (v, n)

/-- `explist1`: the last expression and the number of expressions. -/
def explist1 : CompileM N (ExpDesc N × Nat) := do
  -- at least one expression
  let v ← expr rules
  explistLoop env rules fuel v 1

/-! ## Calls -/

/-- The arguments of a call, `VVOID` when there are none. -/
def callArgs (line : Nat) : CompileM N (ExpDesc N) := do
  let t ← token
  if t = tok '(' then
    if line ≠ (← get).lastline then syntaxerror (bytes "ambiguous syntax (function call x new statement)")
    next env
    -- arg list is empty?
    let args ←
      if (← token) = tok ')' then pure (initExp .vvoid 0)
      else
        let (args, _) ← explist1 env fuel rules
        gen (setreturns args multRet)
        pure args
    checkMatch env (tok ')') (tok '(') line
    pure args
  else if t = tok '\x7b' then constructor env fuel rules
  else if t = tkString then
    let args ← codestring env (← get).string
    -- must use `seminfo` before `next`
    next env
    pure args
  else syntaxerror (bytes "function arguments expected")

/-- The instruction of a call. -/
def codeCall (f args : ExpDesc N) (line : Nat) : CodeM N (ExpDesc N) := do
  -- base register for call
  let base := f.info
  let nparams ←
    -- open call
    if args.hasmultret then pure multRet
    else
      -- close last argument
      if args.k ≠ .vvoid then
        let _ ← exp2nextreg env args
      pure ((← get).freereg - (base + 1))
  let pc ← codeABC .call base (nparams + 1) 2
  fixline line
  -- call remove function and arguments and leaves (unless changed) one result
  modify fun fs => { fs with freereg := base + 1 }
  pure (initExp .vcall pc)

def funcargs (f : ExpDesc N) : CompileM N (ExpDesc N) := do
  let line := (← get).linenumber
  let args ← callArgs env fuel rules line
  gen (codeCall env f args line)

/-! ## Expressions -/

def prefixexp : CompileM N (ExpDesc N) := do
  let t ← token
  if t = tok '(' then
    let line := (← get).linenumber
    next env
    let v ← expr rules
    checkMatch env (tok ')') (tok '(') line
    gen (dischargevars v)
  else if t = tkName then singlevar env
  else syntaxerror (bytes "unexpected symbol")

/-- The loop of `primaryexp`. -/
def primaryLoop : (left : Nat) → (v : ExpDesc N) → CompileM N (ExpDesc N)
  | 0, _ => throw .outOfFuel
  | left + 1, v => do
    let t ← token
    if t = tok '.' then
      let v ← field env v
      primaryLoop left v
    else if t = tok '[' then
      let v ← gen (exp2anyreg env v)
      let key ← yindex env rules
      let v ← gen (indexed env v key)
      primaryLoop left v
    else if t = tok ':' then
      next env
      let key ← checkname env
      let v ← gen (self env v key)
      let v ← funcargs env fuel rules v
      primaryLoop left v
    else if t = tok '(' ∨ t = tkString ∨ t = tok '\x7b' then
      let v ← gen (exp2nextreg env v)
      let v ← funcargs env fuel rules v
      primaryLoop left v
    else pure v

def primaryexp : CompileM N (ExpDesc N) := do
  let v ← prefixexp env rules
  primaryLoop env fuel rules fuel v

/-- The number of the current token. -/
def LexState.number (ls : LexState N) : N :=
  match ls.t.seminfo with
  | .r n => n
  | .ts _ => castNum 0

/-- `...` as an expression. -/
def dots : CompileM N (ExpDesc N) := do
  let fs := (← get).fs
  if fs.isVararg = 0 then syntaxerror (bytes "cannot use " ++ quoted (bytes "...") ++ bytes " outside a vararg function")
  -- don't need `arg`
  gen (modify fun fs => { fs with isVararg := fs.isVararg &&& (varargHasArg ||| varargIsVararg) })
  let pc ← gen (codeABC .vararg 0 1 0)
  pure (initExp .vvararg pc)

def simpleexp : CompileM N (ExpDesc N) := do
  let t ← token
  if t = tkNumber then
    let ls ← get
    next env
    let v : ExpDesc N := initExp .vknum 0
    pure { v with nval := ls.number }
  else if t = tkString then
    let v ← codestring env (← get).string
    next env
    pure v
  else if t = tkNil then
    next env
    pure (initExp .vnil 0)
  else if t = tkTrue then
    next env
    pure (initExp .vtrue 0)
  else if t = tkFalse then
    next env
    pure (initExp .vfalse 0)
  else if t = tkDots then
    let v ← dots
    next env
    pure v
  else if t = tok '\x7b' then constructor env fuel rules
  else if t = tkFunction then
    next env
    body env fuel rules false (← get).linenumber
  else primaryexp env fuel rules

/-- The loop of `subexpr`: it expands while operators have priorities higher than `limit`. -/
def exprLoop (limit : Nat) : (left : Nat) → (op : Option BinOpr) → (v : ExpDesc N) → CompileM N (ExpDesc N × Option BinOpr)
  | 0, _, _ => throw .outOfFuel
  | _ + 1, none, v => pure (v, none)
  | left + 1, some op, v =>
    if leftPriority op > limit then do
      next env
      let v ← gen (infixExp env op v)
      -- read sub-expression with higher priority
      let (v2, nextop) ← rules.subexpr (rightPriority op)
      let v ← gen (posfixExp env op v v2)
      exprLoop limit left nextop v
    else pure (v, some op)

/-- The beginning of `subexpr`: a simple expression, or a unary operator and its operand. -/
def firstOperand : CompileM N (ExpDesc N) := do
  match getunopr (← token) with
  | some uop =>
    next env
    let (v, _) ← rules.subexpr unaryPriority
    gen (prefixExp env uop v)
  | none => simpleexp env fuel rules

def subexpr (limit : Nat) : CompileM N (ExpDesc N × Option BinOpr) := do
  enterlevel
  let v ← firstOperand env fuel rules
  -- expand while operators have priorities higher than `limit`
  let op := getbinopr (← token)
  let r ← exprLoop env rules limit fuel op v
  leavelevel
  pure r

/-! ## Assignments -/

/-- `block_follow` -/
def blockFollow (t : Nat) : Prop := t = tkElse ∨ t = tkElseif ∨ t = tkEnd ∨ t = tkUntil ∨ t = tkEos

instance (t : Nat) : Decidable (blockFollow t) := inferInstanceAs (Decidable (_ ∨ _))

def block : CompileM N Unit := do
  gen (enterblock false)
  rules.chunk
  gen leaveblock

/-- The local variable `v` is needed in the previous assignment to `lh`. -/
def conflicts (v lh : ExpDesc N) : Prop := lh.k = .vindexed ∧ (lh.info = v.info ∨ lh.aux = v.info)

instance (v lh : ExpDesc N) : Decidable (conflicts v lh) := inferInstanceAs (Decidable (_ ∧ _))

/-- The previous assignment to `lh` will use the copy in `extra`. -/
def useCopy (v : ExpDesc N) (extra : Int) (lh : ExpDesc N) : ExpDesc N :=
  if lh.k = .vindexed then
    { lh with info := if lh.info = v.info then extra else lh.info, aux := if lh.aux = v.info then extra else lh.aux }
  else lh

/-- `check_conflict` with the previous variables `lh`. -/
def checkConflict (lh : List (ExpDesc N)) (v : ExpDesc N) : CodeM N (List (ExpDesc N)) := do
  let fs ← get
  -- eventual position to save local variable
  let extra := fs.freereg
  if ∃ l ∈ lh, conflicts v l then
    -- make copy
    let _ ← codeABC .move fs.freereg v.info 0
    reserveregs 1
    pure (lh.map (useCopy v extra))
  else pure lh

/-- `VLOCAL <= k && k <= VINDEXED` -/
def ExpDesc.isVariable (e : ExpDesc N) : Prop := e.k = .vlocal ∨ e.k = .vupval ∨ e.k = .vglobal ∨ e.k = .vindexed

instance (e : ExpDesc N) : Decidable (ExpDesc.isVariable e) := inferInstanceAs (Decidable (_ ∨ _))

/-- The default assignment: the value is in the last register. -/
def storeLast (lh : ExpDesc N) : CodeM N Unit := do
  let fs ← get
  storevar env lh (initExp .vnonreloc (fs.freereg - 1))

/-- The case of `assignment` after `=`. -/
def assignValues (lh : ExpDesc N) (nvars : Nat) : CompileM N Unit := do
  checknext env (tok '=')
  let (e, nexps) ← explist1 env fuel rules
  if nexps ≠ nvars then
    gen (adjustAssign env nvars nexps e)
    if nexps > nvars then
      -- remove extra values
      gen (modify fun fs => { fs with freereg := fs.freereg - (nexps - nvars : Nat) })
    gen (storeLast env lh)
  else
    -- close last expression
    let e ← gen (setoneret e)
    gen (storevar env lh e)

/-- `assignment` to `lh`, after the variables `prev`: these variables, which it can change. -/
def assignment : (left : Nat) → (lh : ExpDesc N) → (prev : List (ExpDesc N)) → (nvars : Nat) → CompileM N (List (ExpDesc N))
  | 0, _, _, _ => throw .outOfFuel
  | left + 1, lh, prev, nvars => do
    if ¬ ExpDesc.isVariable lh then syntaxerror (bytes "syntax error")
    if ← testnext env (tok ',') then
      let nv ← primaryexp env fuel rules
      let chain ← if nv.k = .vlocal then gen (checkConflict (lh :: prev) nv) else pure (lh :: prev)
      let nCcalls := (← get).nCcalls
      gen (checklimit nvars (maxCCalls - nCcalls : Int) (bytes "variables in assignment"))
      let chain ← assignment left nv chain (nvars + 1)
      match chain with
      | [] => pure []
      | lh :: prev =>
        gen (storeLast env lh)
        pure prev
    else
      assignValues env fuel rules lh nvars
      pure prev

/-! ## Statements -/

/-- `cond`: the list of its jumps. -/
def cond : CompileM N Int := do
  -- read condition
  let v ← expr rules
  -- `falses` are all equal here
  let v := if v.k = .vnil then { v with k := .vfalse } else v
  let v ← gen (goiftrue env v)
  pure v.f

/-- The innermost loop: the blocks inside it, and whether one of them has upvalues. -/
def findLoop : (bl : List BlockCnt) → (inside : Nat) → (upval : Bool) → Option (Nat × BlockCnt × Bool)
  | [], _, _ => none
  | bl :: previous, inside, upval =>
    if bl.isbreakable then some (inside, bl, upval) else findLoop previous (inside + 1) (upval || bl.upval)

def breakstat : CodeM N Unit := do
  let fs ← get
  match findLoop fs.bl 0 false with
  | none => throw (.syntaxerror (bytes "no loop to break"))
  | some (inside, bl, upval) =>
    if upval then
      let _ ← codeABC .close bl.nactvar 0 0
    let j ← jump
    let breaklist ← concat bl.breaklist j
    modify fun fs => { fs with bl := fs.bl.modify inside fun bl => { bl with breaklist } }

def whilestat (line : Nat) : CompileM N Unit := do
  -- skip WHILE
  next env
  let whileinit ← gen getlabel
  let condexit ← cond env rules
  gen (enterblock true)
  checknext env tkDo
  block rules
  gen do
    let j ← jump
    patchlist j whileinit
  checkMatch env tkEnd tkWhile line
  gen leaveblock
  -- false conditions finish the loop
  gen (patchtohere condexit)

/-- The end of `repeatstat`, when the scope block has upvalues or not. -/
def closeRepeat (upval : Bool) (condexit : Int) (repeatInit : Nat) : CodeM N Unit := do
  -- no upvalues?
  if ¬ upval then
    -- finish scope, close the loop
    leaveblock
    patchlist condexit repeatInit
  -- complete semantics when there are upvalues
  else
    -- if condition then break
    breakstat
    -- else...
    patchtohere condexit
    -- finish scope... and repeat
    leaveblock
    let j ← jump
    patchlist j repeatInit

def repeatstat (line : Nat) : CompileM N Unit := do
  let repeatInit ← gen getlabel
  -- loop block
  gen (enterblock true)
  -- scope block
  gen (enterblock false)
  -- skip REPEAT
  next env
  rules.chunk
  checkMatch env tkUntil tkRepeat line
  -- read condition (inside scope block)
  let condexit ← cond env rules
  let fs := (← get).fs
  gen (closeRepeat (fs.bl.head?.any BlockCnt.upval) condexit repeatInit)
  -- finish loop
  gen leaveblock

def exp1 : CompileM N Unit := do
  let e ← expr rules
  let _ ← gen (exp2nextreg env e)

/-- The last instructions of a loop. -/
def closeFor (base : Int) (prep : Int) (line nvars : Nat) (isnum : Bool) : CodeM N Unit := do
  patchtohere prep
  let endfor ← if isnum then codeAsBx .forloop base noJump else codeABC .tforloop base 0 nvars
  -- pretend that `OP_FOR` starts the loop
  fixline line
  let list ← if isnum then pure (endfor : Int) else jump
  patchlist list (prep + 1)

def forbody (base : Int) (line nvars : Nat) (isnum : Bool) : CompileM N Unit := do
  -- control variables
  gen (adjustlocalvars 3)
  checknext env tkDo
  let prep ← gen do
    if isnum then
      let pc ← codeAsBx .forprep base noJump
      pure (pc : Int)
    else jump
  -- scope for declared variables
  gen (enterblock false)
  gen (adjustlocalvars nvars)
  gen (reserveregs nvars)
  block rules
  -- end of scope for declared variables
  gen leaveblock
  gen (closeFor base prep line nvars isnum)

/-- `new_localvarliteral` -/
def newLocalvarliteral (v : String) (n : Nat) : CompileM N Unit := do
  newString env (bytes v)
  gen (newLocalvar (bytes v) n)

/-- The default step is 1. -/
def defaultStep : CodeM N Unit := do
  let k ← onConstants (numberK env.mp (castNum 1))
  let fs ← get
  let _ ← codeABx .loadk fs.freereg k
  reserveregs 1

def fornum (varname : TString) (line : Nat) : CompileM N Unit := do
  let base := (← get).fs.freereg
  newLocalvarliteral env "(for index)" 0
  newLocalvarliteral env "(for limit)" 1
  newLocalvarliteral env "(for step)" 2
  gen (newLocalvar varname 3)
  checknext env (tok '=')
  -- initial value
  exp1 env rules
  checknext env (tok ',')
  -- limit
  exp1 env rules
  -- optional step
  if ← testnext env (tok ',') then exp1 env rules else gen (defaultStep env)
  forbody env rules base line 1 true

/-- The declared variables of `forlist` after the first. -/
def forVars : (left : Nat) → (nvars : Nat) → CompileM N Nat
  | 0, _ => throw .outOfFuel
  | left + 1, nvars => do
    if ← testnext env (tok ',') then
      let name ← strCheckname env
      gen (newLocalvar name nvars)
      forVars left (nvars + 1)
    else pure nvars

def forlist (indexname : TString) : CompileM N Unit := do
  let base := (← get).fs.freereg
  -- create control variables
  newLocalvarliteral env "(for generator)" 0
  newLocalvarliteral env "(for state)" 1
  newLocalvarliteral env "(for control)" 2
  -- create declared variables
  gen (newLocalvar indexname 3)
  let nvars ← forVars env fuel 4
  checknext env tkIn
  let line := (← get).linenumber
  let (e, nexps) ← explist1 env fuel rules
  gen (adjustAssign env 3 nexps e)
  -- extra space to call generator
  gen (checkstack 3)
  forbody env rules base line (nvars - 3) false

def forstat (line : Nat) : CompileM N Unit := do
  -- scope for loop and control variables
  gen (enterblock true)
  -- skip `for`
  next env
  -- first variable name
  let varname ← strCheckname env
  let t ← token
  if t = tok '=' then fornum env rules varname line
  else if t = tok ',' ∨ t = tkIn then forlist env fuel rules varname
  else syntaxerror (quoted (bytes "=") ++ bytes " or " ++ quoted (bytes "in") ++ bytes " expected")
  checkMatch env tkEnd tkFor line
  -- loop scope (`break` jumps to this point)
  gen leaveblock

/-- `test_then_block` -/
def testThenBlock : CompileM N Int := do
  -- skip IF or ELSEIF
  next env
  let condexit ← cond env rules
  checknext env tkThen
  -- `then` part
  block rules
  pure condexit

/-- Another part of `ifstat` begins: the escape list. -/
def nextPart (escapelist flist : Int) : CodeM N Int := do
  let j ← jump
  let escapelist ← concat escapelist j
  patchtohere flist
  pure escapelist

/-- The `ELSEIF` parts of `ifstat`: the escape list and the list of the last condition. -/
def elseifLoop : (left : Nat) → (escapelist flist : Int) → CompileM N (Int × Int)
  | 0, _, _ => throw .outOfFuel
  | left + 1, escapelist, flist => do
    if (← token) = tkElseif then
      let escapelist ← gen (nextPart escapelist flist)
      let flist ← testThenBlock env rules
      elseifLoop left escapelist flist
    else pure (escapelist, flist)

def ifstat (line : Nat) : CompileM N Unit := do
  -- IF cond THEN block
  let flist ← testThenBlock env rules
  let (escapelist, flist) ← elseifLoop env rules fuel noJump flist
  let escapelist ←
    if (← token) = tkElse then
      let escapelist ← gen (nextPart escapelist flist)
      -- skip ELSE (after patch, for correct line info)
      next env
      -- `else` part
      block rules
      pure escapelist
    else gen (concat escapelist flist)
  gen (patchtohere escapelist)
  checkMatch env tkEnd tkIf line

def localfunc : CompileM N Unit := do
  let name ← strCheckname env
  gen (newLocalvar name 0)
  let v := initExp .vlocal (← get).fs.freereg
  gen (reserveregs 1)
  gen (adjustlocalvars 1)
  let b ← body env fuel rules false (← get).linenumber
  gen (storevar env v b)
  -- debug information will only see the variable after this point!
  gen (modify fun fs => modifyLocvar (fs.nactvar - 1) (fun v => { v with startpc := fs.pc }) fs)

/-- The names of `localstat`; how many there are. -/
def localNames : (left : Nat) → (nvars : Nat) → CompileM N Nat
  | 0, _ => throw .outOfFuel
  | left + 1, nvars => do
    let name ← strCheckname env
    gen (newLocalvar name nvars)
    if ← testnext env (tok ',') then localNames left (nvars + 1) else pure (nvars + 1)

def localstat : CompileM N Unit := do
  let nvars ← localNames env fuel 0
  let (e, nexps) ← if ← testnext env (tok '=') then explist1 env fuel rules else pure (initExp .vvoid 0, 0)
  gen (adjustAssign env nvars nexps e)
  gen (adjustlocalvars nvars)

/-- The loop of `funcname`. -/
def funcFields : (left : Nat) → (v : ExpDesc N) → CompileM N (ExpDesc N)
  | 0, _ => throw .outOfFuel
  | left + 1, v => do
    if (← token) = tok '.' then
      let v ← field env v
      funcFields left v
    else pure v

/-- `funcname`: the variable, and whether the function has a parameter `self`. -/
def funcname : CompileM N (ExpDesc N × Bool) := do
  let v ← singlevar env
  let v ← funcFields env fuel v
  if (← token) = tok ':' then
    let v ← field env v
    pure (v, true)
  else pure (v, false)

def funcstat (line : Nat) : CompileM N Unit := do
  -- skip FUNCTION
  next env
  let (v, needself) ← funcname env fuel
  let b ← body env fuel rules needself line
  gen (storevar env v b)
  -- definition `happens` in the first line
  gen (fixline line)

def exprstat : CompileM N Unit := do
  let v ← primaryexp env fuel rules
  -- stat -> func
  if v.k = .vcall then
    -- call statement uses no results
    gen (modifyCode v fun i => setArgC i 1)
  -- stat -> assignment
  else
    let _ ← assignment env fuel rules fuel v [] 1

/-- The returned values of `retstat`: the first register and how many there are. -/
def retValues (e : ExpDesc N) (nret : Nat) : CodeM N (Int × Int) := do
  let fs ← get
  if e.hasmultret then
    setreturns e multRet
    -- tail call?
    if e.k = .vcall ∧ nret = 1 then modifyCode e fun i => setOpcode i .tailcall
    -- return all values
    pure (fs.nactvar, multRet)
  -- only one single value?
  else if nret = 1 then
    let e ← exp2anyreg env e
    pure (e.info, 1)
  else
    -- values must go to the `stack`
    let _ ← exp2nextreg env e
    -- return all `active` values
    pure (fs.nactvar, nret)

def retstat : CompileM N Unit := do
  -- skip RETURN
  next env
  let t ← token
  -- return no values
  if blockFollow t ∨ t = tok ';' then gen (ret 0 0)
  else
    -- optional return values
    let (e, nret) ← explist1 env fuel rules
    let (first, nret) ← gen (retValues env e nret)
    gen (ret first nret)

/-- `statement`; whether it must be the last one. -/
def statement : CompileM N Bool := do
  -- may be needed for error messages
  let line := (← get).linenumber
  let t ← token
  if t = tkIf then
    ifstat env fuel rules line
    pure false
  else if t = tkWhile then
    whilestat env rules line
    pure false
  else if t = tkDo then
    -- skip DO
    next env
    block rules
    checkMatch env tkEnd tkDo line
    pure false
  else if t = tkFor then
    forstat env fuel rules line
    pure false
  else if t = tkRepeat then
    repeatstat env rules line
    pure false
  else if t = tkFunction then
    funcstat env fuel rules line
    pure false
  else if t = tkLocal then
    -- skip LOCAL
    next env
    -- local function?
    if ← testnext env tkFunction then localfunc env fuel rules else localstat env fuel rules
    pure false
  else if t = tkReturn then
    retstat env fuel rules
    pure true
  else if t = tkBreak then
    -- skip BREAK
    next env
    gen breakstat
    pure true
  else
    exprstat env fuel rules
    pure false

/-- The loop of `chunk`. -/
def chunkLoop : (left : Nat) → CompileM N Unit
  | 0 => throw .outOfFuel
  | left + 1 => do
    if blockFollow (← token) then pure ()
    else
      let islast ← statement env fuel rules
      let _ ← testnext env (tok ';')
      -- free registers
      gen (modify fun fs => { fs with freereg := fs.nactvar })
      if islast then pure () else chunkLoop left

def chunk : CompileM N Unit := do
  enterlevel
  chunkLoop env fuel rules fuel
  leavelevel

/-! ## The parser -/

/-- The rules that can be nested in `levels` levels of syntax. -/
def rulesAt : (levels : Nat) → Rules N
  | 0 => ⟨fun _ => throw .outOfFuel, throw .outOfFuel⟩
  | levels + 1 => ⟨subexpr env fuel (rulesAt levels), chunk env fuel (rulesAt levels)⟩

/-- The state in which the lexer has not returned a token yet. -/
def initial (tokens : List (Token N × Nat)) (eosLine : Nat) (nCcalls address : Nat) : LexState N where
  t := eosToken
  lookahead := eosToken
  linenumber := 1
  lastline := 1
  rest := tokens
  eosLine
  nCcalls
  fs := { newFuncState address with isVararg := varargIsVararg }
  prev := []
  address := address + 1
  closed := []

/-- `gafqY_parser`: the prototype of the main function. -/
def parser : CompileM N Proto := do
  -- read first token
  next env
  (rulesAt env fuel (maxCCalls + 1)).chunk
  check tkEos
  let func ← closeFunc env
  pure (proto env func)

end Gafq.Compiler
