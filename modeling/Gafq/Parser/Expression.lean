import Gafq.Lex

/-! # Parsing expressions

The expressions of `gparser.c`.  The state of the parser is the current token and the tokens after it,
each with the line that the lexer has reached with it.  The code generator does not run here: an
expression descriptor is the term of the calls that have made it, and these calls are recorded.

An expression may also contain table constructors, function bodies and what follows a prefix expression
(fields, indexes, methods and arguments); the functions for these are parameters.
-/

namespace Gafq.Parser

open Lexer

/-! ## Operators -/

inductive BinOpr where
  | add | sub | mul | div | mod | pow | concat | ne | eq | lt | le | gt | ge | and | or
deriving DecidableEq, Repr

inductive UnOpr where
  | minus | not | len
deriving DecidableEq, Repr

/-- The token of a single character. -/
def tok (c : Char) : Nat := (byte c).toNat

def tkAnd : Nat := 257
def tkFalse : Nat := 263
def tkFunction : Nat := 265
def tkNil : Nat := 269
def tkNot : Nat := 270
def tkOr : Nat := 271
def tkTrue : Nat := 275

def getunopr (op : Nat) : Option UnOpr :=
  if op = tkNot then some .not
  else if op = tok '-' then some .minus
  else if op = tok '#' then some .len
  else none

def getbinopr (op : Nat) : Option BinOpr :=
  if op = tok '+' then some .add
  else if op = tok '-' then some .sub
  else if op = tok '*' then some .mul
  else if op = tok '/' then some .div
  else if op = tok '%' then some .mod
  else if op = tok '^' then some .pow
  else if op = tkConcat then some .concat
  else if op = tkNe then some .ne
  else if op = tkEq then some .eq
  else if op = tok '<' then some .lt
  else if op = tkLe then some .le
  else if op = tok '>' then some .gt
  else if op = tkGe then some .ge
  else if op = tkAnd then some .and
  else if op = tkOr then some .or
  else none

/-- left priority for each binary operator -/
def leftPriority : BinOpr → Nat
  | .add | .sub => 6
  | .mul | .div | .mod => 7
  | .pow => 10
  | .concat => 5
  | .ne | .eq | .lt | .le | .gt | .ge => 3
  | .and => 2
  | .or => 1

/-- right priority -/
def rightPriority : BinOpr → Nat
  | .add | .sub => 6
  | .mul | .div | .mod => 7
  -- power and concat (right associative)
  | .pow => 9
  | .concat => 4
  | .ne | .eq | .lt | .le | .gt | .ge => 3
  | .and => 2
  | .or => 1

/-- `UNARY_PRIORITY` -/
def unaryPriority : Nat := 8

/-- `GAFQI_MAXCCALLS` -/
def maxLevels : Nat := 200

/-! ## The state -/

/-- An expression descriptor, by what has made it. -/
inductive ExpDesc (N : Type) where
  | simple (t : Token N)
  | prefixed (op : UnOpr) (e : ExpDesc N)
  | infixed (op : BinOpr) (v : ExpDesc N)
  | posfixed (op : BinOpr) (e1 e2 : ExpDesc N)
  | discharged (v : ExpDesc N)
  /-- by one of the functions that are parameters here -/
  | other (i : Nat)
deriving DecidableEq, Repr

/-- A call of the code generator, with the descriptors as they are before it. -/
inductive Call (N : Type) where
  | gafqKPrefix (op : UnOpr) (e : ExpDesc N)
  | gafqKInfix (op : BinOpr) (v : ExpDesc N)
  | gafqKPosfix (op : BinOpr) (e1 e2 : ExpDesc N)
  | gafqKDischargevars (v : ExpDesc N)
deriving DecidableEq, Repr

structure ParseState (N : Type) where
  /-- the current token and those after it, up to `TK_EOS` -/
  tokens : List (Token N × Nat)
  /-- the line of `TK_EOS` -/
  lastLine : Nat
  calls : List (Call N)
deriving DecidableEq, Repr

inductive ParseError where
  /-- `gafqX_lexerror`: the line, the message and the token it is near to -/
  | syntaxError (line : Nat) (msg : TString) (token : Nat)
  | outOfFuel
deriving DecidableEq, Repr

abbrev ParseM := Except ParseError

variable {N : Type}

/-- `ls->t.token` -/
def ParseState.token (p : ParseState N) : Nat :=
  match p.tokens with
  | [] => tkEos
  | (t, _) :: _ => t.token

def ParseState.linenumber (p : ParseState N) : Nat :=
  match p.tokens with
  | [] => p.lastLine
  | (_, line) :: _ => line

/-- `gafqX_next` -/
def next (p : ParseState N) : ParseState N := { p with tokens := p.tokens.tail }

/-- The descriptor of the current token, if it is a simple expression. -/
def ParseState.simple (p : ParseState N) : ExpDesc N :=
  match p.tokens with
  | [] => .other 0
  | (t, _) :: _ => .simple t

def call (c : Call N) (p : ParseState N) : ParseState N := { p with calls := p.calls ++ [c] }

def syntaxerror {α : Type} (p : ParseState N) (msg : TString) : ParseM α := .error (.syntaxError p.linenumber msg p.token)

/-- `GAFQ_QS` -/
def quoted (s : TString) : TString := apostrophe :: (s ++ [apostrophe])

/-- `check_match` -/
def checkMatch (p : ParseState N) (what who line : Nat) : ParseM (ParseState N) :=
  if p.token = what then .ok (next p)
  else if line = p.linenumber then syntaxerror p (quoted (token2str what) ++ bytes " expected")
  else syntaxerror p (quoted (token2str what) ++ bytes " expected (to close " ++ quoted (token2str who) ++
    bytes (" at line " ++ toString line ++ ")"))

/-- What the parser of expressions gets from elsewhere. -/
structure Rules (N : Type) where
  /-- `fs->f->is_vararg` -/
  isVararg : Bool
  constructor : ParseState N → ParseM (ExpDesc N × ParseState N)
  body : ParseState N → ParseM (ExpDesc N × ParseState N)
  /-- what follows a prefix expression: `field`, `yindex`, a method call or `funcargs` -/
  suffix : ExpDesc N → ParseState N → ParseM (ExpDesc N × ParseState N)

section

variable (rules : Rules N) (fuel : Nat)

/-! ## Simple expressions -/

section

/- `expr` for what is in parentheses -/
variable (expr : ParseState N → ParseM (ExpDesc N × ParseState N))

def prefixexp (p : ParseState N) : ParseM (ExpDesc N × ParseState N) :=
  if p.token = tok '(' then do
    let line := p.linenumber
    let (v, p) ← expr (next p)
    let p ← checkMatch p (tok ')') (tok '(') line
    pure (.discharged v, call (.gafqKDischargevars v) p)
  -- `singlevar'
  else if p.token = tkName then pure (p.simple, next p)
  else syntaxerror p (bytes "unexpected symbol")

/-- The tokens that go on with a prefix expression. -/
def suffixTokens : List Nat := [tok '.', tok '[', tok ':', tok '(', tkString, tok '\x7b']

/-- The loop of `primaryexp`. -/
def primaryLoop : Nat → ExpDesc N → ParseState N → ParseM (ExpDesc N × ParseState N)
  | 0, _, _ => .error .outOfFuel
  | left + 1, v, p =>
    if p.token ∈ suffixTokens then do
      let (v, p) ← rules.suffix v p
      primaryLoop left v p
    else pure (v, p)

def primaryexp (p : ParseState N) : ParseM (ExpDesc N × ParseState N) := do
  let (v, p) ← prefixexp expr p
  primaryLoop rules fuel v p

/-- The tokens that are expressions. -/
def simpleTokens : List Nat := [tkNumber, tkString, tkNil, tkTrue, tkFalse]

def simpleexp (p : ParseState N) : ParseM (ExpDesc N × ParseState N) :=
  if p.token ∈ simpleTokens then pure (p.simple, next p)
  else if p.token = tkDots then
    -- vararg
    if rules.isVararg then pure (p.simple, next p)
    else syntaxerror p (bytes "cannot use " ++ quoted (bytes "...") ++ bytes " outside a vararg function")
  else if p.token = tok '\x7b' then rules.constructor p
  else if p.token = tkFunction then rules.body (next p)
  else primaryexp rules fuel expr p

end

/-! ## Subexpressions -/

/-- The loop of `subexpr`: it expands while operators have priorities higher than `limit`. -/
def exprLoop (subexpr : Nat → ParseState N → ParseM (Option BinOpr × ExpDesc N × ParseState N)) (limit : Nat) :
    Nat → Option BinOpr → ExpDesc N → ParseState N → ParseM (Option BinOpr × ExpDesc N × ParseState N)
  | 0, _, _, _ => .error .outOfFuel
  | _ + 1, none, v, p => pure (none, v, p)
  | left + 1, some op, v, p =>
    if leftPriority op > limit then do
      let p := call (.gafqKInfix op v) (next p)
      -- read sub-expression with higher priority
      let (nextop, v2, p) ← subexpr (rightPriority op) p
      exprLoop subexpr limit left nextop (.posfixed op (.infixed op v) v2) (call (.gafqKPosfix op (.infixed op v) v2) p)
    else pure (some op, v, p)

/-- The beginning of `subexpr`: a simple expression, or a unary operator and its operand. -/
def firstOperand (subexpr : Nat → ParseState N → ParseM (Option BinOpr × ExpDesc N × ParseState N)) (p : ParseState N) :
    ParseM (ExpDesc N × ParseState N) :=
  match getunopr p.token with
  | some uop => do
    let (_, v, p) ← subexpr unaryPriority (next p)
    pure (.prefixed uop v, call (.gafqKPrefix uop v) p)
  | none =>
    simpleexp rules fuel (fun p => do
      let (_, v, p) ← subexpr 0 p
      pure (v, p)) p

/-- `subexpr`, when `levels` more calls are allowed; it returns the first untreated operator. -/
def subexpr : (levels limit : Nat) → ParseState N → ParseM (Option BinOpr × ExpDesc N × ParseState N)
  | 0, _, p => .error (.syntaxError p.linenumber (bytes "chunk has too many syntax levels") 0)
  | levels + 1, limit, p => do
    let (v, p) ← firstOperand rules fuel (subexpr levels) p
    exprLoop (subexpr levels) limit fuel (getbinopr p.token) v p

/-- `expr`, called with `L->nCcalls = nCcalls`. -/
def expr (nCcalls : Nat) (p : ParseState N) : ParseM (ExpDesc N × ParseState N) := do
  let (_, v, p) ← subexpr rules fuel (maxLevels - nCcalls) 0 p
  pure (v, p)

end

end Gafq.Parser
