import Gafq.Parser.Expression

/-! # Printing expressions

The tree of an expression, the tokens it is written with, and the calls of the code generator that stand
for it.  An operand is put in parentheses only where the priorities require it.
-/

namespace Gafq.Parser

open Lexer

variable {N : Type}

/-! ## Trees -/

/-- The tokens that are operands. -/
def atomTokens : List Nat := tkName :: tkDots :: simpleTokens

structure Atom (N : Type) where
  token : Token N
  isAtom : token.token ∈ atomTokens

inductive Expr (N : Type) where
  | atom (a : Atom N)
  | unary (op : UnOpr) (x : Expr N)
  | binary (op : BinOpr) (l r : Expr N)

/-- No operand is `...`. -/
def Expr.NoDots : Expr N → Prop
  | .atom a => a.token.token ≠ tkDots
  | .unary _ x => x.NoDots
  | .binary _ l r => l.NoDots ∧ r.NoDots

/-! ## Parentheses -/

/-- The operand of a unary operator is an operator that binds less. -/
def unaryParen : Expr N → Bool
  | .binary op _ _ => leftPriority op ≤ unaryPriority
  | _ => false

/-- The left operand would give up its last operand. -/
def leftParen (op : BinOpr) : Expr N → Bool
  | .binary op' _ _ => rightPriority op' < leftPriority op
  | .unary _ _ => unaryPriority < leftPriority op
  | .atom _ => false

/-- The right operand would lose its first operand. -/
def rightParen (op : BinOpr) : Expr N → Bool
  | .binary op' _ _ => leftPriority op' ≤ rightPriority op
  | _ => false

/-! ## Tokens -/

def unaryToken : UnOpr → Nat
  | .minus => tok '-'
  | .not => tkNot
  | .len => tok '#'

def binaryToken : BinOpr → Nat
  | .add => tok '+'
  | .sub => tok '-'
  | .mul => tok '*'
  | .div => tok '/'
  | .mod => tok '%'
  | .pow => tok '^'
  | .concat => tkConcat
  | .ne => tkNe
  | .eq => tkEq
  | .lt => tok '<'
  | .le => tkLe
  | .gt => tok '>'
  | .ge => tkGe
  | .and => tkAnd
  | .or => tkOr

/-- What is printed: operands, and tokens that are their number. -/
inductive Printed (N : Type) where
  | atom (t : Token N)
  | mark (token : Nat)

/-- An operand, in parentheses or not. -/
def parenthesize (paren : Bool) (text : List (Printed N)) : List (Printed N) :=
  if paren then .mark (tok '(') :: (text ++ [.mark (tok ')')]) else text

def Expr.print : Expr N → List (Printed N)
  | .atom a => [.atom a.token]
  | .unary op x => .mark (unaryToken op) :: parenthesize (unaryParen x) x.print
  | .binary op l r =>
    parenthesize (leftParen op l) l.print ++ .mark (binaryToken op) :: parenthesize (rightParen op r) r.print

/-- A token of the stream, on whatever line, and with whatever semantics information if it needs none. -/
def Printed.Reads : Printed N → Token N × Nat → Prop
  | .atom t, (t', _) => t' = t
  | .mark token, (t, _) => t.token = token

/-- The tokens of the stream are the printed ones. -/
def Written (text : List (Printed N)) (tokens : List (Token N × Nat)) : Prop := List.Forall₂ Printed.Reads text tokens

/-! ## Calls -/

/-- The descriptor of an operand. -/
def operandValue (paren : Bool) (v : ExpDesc N) : ExpDesc N := if paren then .discharged v else v

def operandCalls (paren : Bool) (v : ExpDesc N) (calls : List (Call N)) : List (Call N) :=
  if paren then calls ++ [.gafqKDischargevars v] else calls

/-- The descriptor that stands for the tree. -/
def Expr.value : Expr N → ExpDesc N
  | .atom a => .simple a.token
  | .unary op x => .prefixed op (operandValue (unaryParen x) x.value)
  | .binary op l r =>
    .posfixed op (.infixed op (operandValue (leftParen op l) l.value)) (operandValue (rightParen op r) r.value)

/-- The calls that make it: operands before operators, and the left operand before the right one. -/
def Expr.calls : Expr N → List (Call N)
  | .atom _ => []
  | .unary op x =>
    operandCalls (unaryParen x) x.value x.calls ++ [.gafqKPrefix op (operandValue (unaryParen x) x.value)]
  | .binary op l r =>
    let v := operandValue (leftParen op l) l.value
    let v2 := operandValue (rightParen op r) r.value
    operandCalls (leftParen op l) l.value l.calls ++ .gafqKInfix op v ::
      (operandCalls (rightParen op r) r.value r.calls ++ [.gafqKPosfix op (.infixed op v) v2])

/-- The tree of operators that a descriptor stands for. -/
inductive Tree (N : Type) where
  | leaf (t : Token N)
  | unary (op : UnOpr) (x : Tree N)
  | binary (op : BinOpr) (l r : Tree N)

def Expr.tree : Expr N → Tree N
  | .atom a => .leaf a.token
  | .unary op x => .unary op x.tree
  | .binary op l r => .binary op l.tree r.tree

def ExpDesc.tree : ExpDesc N → Option (Tree N)
  | .simple t => some (.leaf t)
  | .prefixed op e => e.tree.map (.unary op)
  | .posfixed op (.infixed op' v) e2 => if op = op' then v.tree.bind fun l => e2.tree.map (.binary op l) else none
  | .discharged v => v.tree
  | _ => none

/-! ## Nesting -/

/-- The calls of `subexpr` that an operand needs on top of one another. -/
def operandNesting (paren : Bool) (n : Nat) : Nat := if paren then n + 1 else n

/-- The calls of `subexpr` within the one that parses the tree. -/
def Expr.nesting : Expr N → Nat
  | .atom _ => 0
  | .unary _ x => operandNesting (unaryParen x) x.nesting + 1
  | .binary op l r =>
    max (operandNesting (leftParen op l) l.nesting) (operandNesting (rightParen op r) r.nesting + 1)

end Gafq.Parser
