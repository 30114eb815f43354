import Gafq.Compare

/-! # Concatenation

`gafqV_concat` of `gvm.c`: the operands stand in consecutive registers and are concatenated from the
last to the first.  A run of strings and numbers is merged in one pass; for any other pair of
operands a metamethod is called.

Strings are interned, so making one gives the same address again for the same characters.
-/

namespace Gafq

open Base (Interaction)

/-- The characters of strings, and `gafqS_newlstr`. -/
structure Interning where
  str : Nat → List UInt8
  newlstr : List UInt8 → Nat
  str_newlstr : ∀ s, str (newlstr s) = s

inductive ConcatError (N : Type) where
  | runerror (msg : String)
  /-- `gafqG_typeerror` on the operand in a register -/
  | typeerror (reg : Nat) (o : TValue N) (op : String)
deriving DecidableEq, Repr

/-- The registers of a function. -/
abbrev Registers (N : Type) := Nat → TValue N

/-- `MAX_SIZET` -/
def maxSizet : Nat := 2 ^ 64 - 3

/-- `ttisstring(o) || ttisnumber(o)` -/
def TValue.isStringOrNumber {N : Type} : TValue N → Bool
  | .string _ | .number _ => true
  | _ => false

variable {N : Type}

/-- `call_binTM`; `none` if no operand has a metamethod for the event. -/
def callBinTM {ε : Type} (p1 p2 : TValue N) (event : TMS) :
    Interaction (TagRequest N) (TValue N) ε (Option (TValue N)) := do
  -- try first operand
  let tm ← .request (.gettmbyobj p1 event)
  -- try second operand
  let tm ← if tm.isNil then .request (.gettmbyobj p2 event) else pure tm
  if tm.isNil then return none
  let res ← .request (.callTMres tm p1 p2)
  return some res

/-- `gafqG_concaterror` -/
def concaterror {A α : Type} (regs : Registers N) (p1 p2 : Nat) : Interaction (TagRequest N) A (ConcatError N) α :=
  let culprit := if (regs p1).isStringOrNumber then p2 else p1
  .fail (.typeerror culprit (regs culprit) "concatenate")

section

variable (strings : Interning) (number2str : N → List UInt8)

/-- `tostring` on a register: whether it holds a string now. -/
def tostring (regs : Registers N) (o : Nat) : Bool × Registers N :=
  match regs o with
  | .string _ => (true, regs)
  | .number n => (true, Function.update regs o (.string (strings.newlstr (number2str n))))
  | _ => (false, regs)

/-- The characters of the string in a register. -/
def svalue (regs : Registers N) (o : Nat) : List UInt8 :=
  match regs o with
  | .string s => strings.str s
  | _ => []

/-- The loop that collects the total length; `left` operands have not been looked at. -/
def collectStrings (top : Nat) : Nat → Nat → Nat → Registers N →
    Interaction (TagRequest N) (TValue N) (ConcatError N) (Nat × Registers N)
  | 0, n, _, regs => .done (n, regs)
  | left + 1, n, tl, regs =>
    match tostring strings number2str regs (top - n - 1) with
    | (true, regs) =>
      let l := (svalue strings regs (top - n - 1)).length
      if maxSizet - tl ≤ l then .fail (.runerror "string length overflow")
      else collectStrings top left (n + 1) (tl + l) regs
    | (false, regs) => .done (n, regs)

/-- What the loop that concatenates `i` strings puts into the buffer. -/
def concatBuffer (regs : Registers N) (top : Nat) : Nat → List UInt8
  | 0 => []
  | i + 1 => svalue strings regs (top - (i + 1)) ++ concatBuffer regs top i

/-- The operands have to be left to a metamethod. -/
def concatTM (regs : Registers N) (top : Nat) :
    Interaction (TagRequest N) (TValue N) (ConcatError N) (Nat × Registers N) := do
  match ← callBinTM (regs (top - 2)) (regs (top - 1)) .concat with
  | some res => return (2, Function.update regs (top - 2) res)
  | none => concaterror regs (top - 2) (top - 1)

/-- One pass of `gafqV_concat`: how many elements it has handled (at least 2), and the registers. -/
def concatPass (total last : Nat) (regs : Registers N) :
    Interaction (TagRequest N) (TValue N) (ConcatError N) (Nat × Registers N) :=
  let top := last + 1
  if !(regs (top - 2)).isStringOrNumber then concatTM regs top
  else
    match tostring strings number2str regs (top - 1) with
    | (false, regs) => concatTM regs top
    | (true, regs) =>
      -- second op is empty?  result is first op (as string)
      if (svalue strings regs (top - 1)).length = 0 then .done (2, (tostring strings number2str regs (top - 2)).2)
      else do
        -- at least two string values; get as many as possible
        let (n, regs) ← collectStrings strings number2str top (total - 1) 1 (svalue strings regs (top - 1)).length regs
        return (n, Function.update regs (top - n) (.string (strings.newlstr (concatBuffer strings regs top n))))

/-- The loop of `gafqV_concat`; each pass leaves fewer operands. -/
def concatLoop : Nat → Nat → Nat → Registers N →
    Interaction (TagRequest N) (TValue N) (ConcatError N) (Registers N)
  | 0, _, _, regs => .done regs
  | passes + 1, total, last, regs => do
    let (n, regs) ← concatPass strings number2str total last regs
    -- got `n' strings to create 1 new; repeat until only 1 result left
    if 1 < total - (n - 1) then concatLoop passes (total - (n - 1)) (last - (n - 1)) regs
    else return regs

/-- `gafqV_concat` -/
def concat (total last : Nat) (regs : Registers N) :
    Interaction (TagRequest N) (TValue N) (ConcatError N) (Registers N) :=
  concatLoop strings number2str total total last regs

end

/-! ## One pair at a time

The binary concatenation is defined on its own, by the kinds of its two operands.
-/

/-- What a metamethod makes of a pair. -/
def metamethodPair (reg : Nat) (p q : TValue N) : Interaction (TagRequest N) (TValue N) (ConcatError N) (TValue N) := do
  match ← callBinTM p q .concat with
  | some res => return res
  | none => if p.isStringOrNumber then .fail (.typeerror (reg + 1) q "concatenate") else .fail (.typeerror reg p "concatenate")

section

variable (strings : Interning) (number2str : N → List UInt8)

/-- The characters of a string or number. -/
def TValue.text : TValue N → List UInt8
  | .string s => strings.str s
  | .number n => number2str n
  | _ => []

/-- A number as a string. -/
def TValue.converted : TValue N → TValue N
  | .number n => .string (strings.newlstr (number2str n))
  | v => v


/-- What two strings or numbers become. -/
def mergedPair (p q : TValue N) : Interaction (TagRequest N) (TValue N) (ConcatError N) (TValue N) :=
  let front := p.text strings number2str
  let rest := q.text strings number2str
  if rest.length = 0 then .done (p.converted strings number2str)
  else if maxSizet - rest.length ≤ front.length then .fail (.runerror "string length overflow")
  else .done (.string (strings.newlstr (front ++ rest)))

/-- The concatenation of two operands, the first of which stands in a register and the second behind it. -/
def binaryConcat (reg : Nat) (p q : TValue N) : Interaction (TagRequest N) (TValue N) (ConcatError N) (TValue N) :=
  if p.isStringOrNumber && q.isStringOrNumber then mergedPair strings number2str p q else metamethodPair reg p q

/-- The binary concatenation folded from the right; the first operand stands in a register, the others behind it. -/
def foldConcat (reg : Nat) : List (TValue N) → Interaction (TagRequest N) (TValue N) (ConcatError N) (TValue N)
  | [] => .done .nil
  | [p] => .done p
  | p :: q :: rest => do
    let right ← foldConcat (reg + 1) (q :: rest)
    binaryConcat strings number2str reg p right

end

end Gafq
