import Gafq.Code.Expression
import Gafq.Parser.Expression

/-! # Code for operators

`gafqK_prefix`, `gafqK_infix` and `gafqK_posfix` of `gcode.c`.
-/

namespace Gafq.Code

open Gafq.Parser (BinOpr UnOpr)

variable {N : Type} [GafqNumber N] (env : Env N)

/-- `gafqK_prefix` -/
def prefixExp (op : UnOpr) (e : ExpDesc N) : CodeM N (ExpDesc N) :=
  let e2 := initExp .vknum 0
  match op with
  | .minus => do
    -- cannot operate on non-numeric constants
    let e ← if e.isnumeral then pure e else exp2anyreg env e
    codearith env .unm e e2
  | .not => codenot env e
  | .len => do
    -- cannot operate on constants
    let e ← exp2anyreg env e
    codearith env .len e e2

/-- `gafqK_infix` -/
def infixExp (op : BinOpr) (v : ExpDesc N) : CodeM N (ExpDesc N) :=
  match op with
  | .and => goiftrue env v
  | .or => goiffalse env v
  -- operand must be on the `stack`
  | .concat => exp2nextreg env v
  | .add | .sub | .mul | .div | .mod | .pow => if v.isnumeral then pure v else Prod.fst <$> exp2RK env v
  | _ => Prod.fst <$> exp2RK env v

/-- The opcode and the condition of a comparison. -/
def comparison : BinOpr → OpCode × Bool
  | .eq => (.eq, true)
  | .ne => (.eq, false)
  | .lt => (.lt, true)
  | .le => (.le, true)
  | .gt => (.lt, false)
  | _ => (.le, false)

/-- The opcode of an arithmetic operator. -/
def arithOp : BinOpr → OpCode
  | .add => .add
  | .sub => .sub
  | .mul => .mul
  | .div => .div
  | .mod => .mod
  | _ => .pow

/-- The case of `gafqK_posfix` for concatenations. -/
def posfixConcat (e1 e2 : ExpDesc N) : CodeM N (ExpDesc N) := do
  let e2 ← exp2val env e2
  let fs ← get
  if e2.k = .vrelocable ∧ opcode? (getcode fs e2) = some .concat then
    freeexp e1
    modifyCode e2 fun i => setArgB i e1.info
    pure { e1 with k := .vrelocable, info := e2.info }
  else
    -- operand must be on the `stack`
    let e2 ← exp2nextreg env e2
    codearith env .concat e1 e2

/-- `gafqK_posfix` -/
def posfixExp (op : BinOpr) (e1 e2 : ExpDesc N) : CodeM N (ExpDesc N) :=
  match op with
  | .and => do
    let e2 ← dischargevars e2
    let f ← concat e2.f e1.f
    pure { e2 with f }
  | .or => do
    let e2 ← dischargevars e2
    let t ← concat e2.t e1.t
    pure { e2 with t }
  | .concat => posfixConcat env e1 e2
  | .add | .sub | .mul | .div | .mod | .pow => codearith env (arithOp op) e1 e2
  | .eq | .ne | .lt | .le | .gt | .ge => codecomp env (comparison op).1 (comparison op).2 e1 e2

end Gafq.Code
