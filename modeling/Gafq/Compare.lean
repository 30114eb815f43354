import Gafq.Ctype
import Gafq.TagMethods
import Gafq.Base.Interaction

/-! # Comparisons

`l_strcmp`, `gafqV_lessthan` and `lessequal` of `gvm.c`.  A string may hold NULs, and `strcoll` compares
C strings: the strings are compared one piece between two NULs after the other.

The values of strings, the order of numbers and `strcoll` are parameters.  What metamethods answer is
not known.
-/

namespace Gafq

open Base (Interaction)

/-! ## Strings -/

/-- `getstr`: the characters of a string and the NUL behind them. -/
def getstr (s : List UInt8) : List UInt8 := s ++ [0]

/-- `strlen`; `none` if there is no NUL. -/
def strlen (l : List UInt8) : Option Nat := if 0 ∈ l then some (CString.ofBytes l).chars.length else none

/-- A C string is shorter than the block it begins. -/
theorem strlen_lt {l : List UInt8} {len : Nat} (found : strlen l = some len) : len < l.length := by
  simp only [strlen] at found
  split at found
  · next nul =>
    cases found
    apply lt_of_le_of_ne (List.takeWhile_prefix _).length_le
    intro same
    have all : (CString.ofBytes l).chars = l := (List.takeWhile_prefix _).eq_of_length same
    apply (CString.ofBytes l).noNul
    rwa [all]
  · cases found

/-- The loop of `l_strcmp`, whose pointers are the rests of the strings; `none` if it reads outside them. -/
def strcmpLoop (strcoll : CString → CString → Int) (l : List UInt8) (ll : Nat) (r : List UInt8) (lr : Nat) : Option Int :=
  match found : strlen l, strlen r with
  | some len, some _ =>
    let temp := strcoll (.ofBytes l) (.ofBytes r)
    if temp ≠ 0 then some temp
    -- strings are equal up to a `\0'; r is finished?
    else if len = lr then some (if len = ll then 0 else 1)
    -- l is finished?
    else if len = ll then some (-1)
    else strcmpLoop strcoll (l.drop (len + 1)) (ll - (len + 1)) (r.drop (len + 1)) (lr - (len + 1))
  | _, _ => none
termination_by l.length
decreasing_by
  have := strlen_lt found
  simp only [List.length_drop]
  omega

/-- `l_strcmp` -/
def strcmp (strcoll : CString → CString → Int) (ls rs : List UInt8) : Option Int :=
  strcmpLoop strcoll (getstr ls) ls.length (getstr rs) rs.length

/-! ## Values -/

/-- What the interpreter asks about metamethods; the answer is a value. -/
inductive TagRequest (N : Type) where
  | gettmbyobj (o : TValue N) (event : TMS)
  | callTMres (f p1 p2 : TValue N)

inductive ComparisonError where
  | runerror (msg : String)
  /-- a comparison of strings that reads outside them -/
  | outside
deriving DecidableEq, Repr

/-- `gafqT_typenames` -/
def TValue.typename {N : Type} : TValue N → String
  | .nil => "nil"
  | .boolean _ => "boolean"
  | .lightuserdata _ => "userdata"
  | .number _ => "number"
  | .string _ => "string"
  | .object .table _ => "table"
  | .object .function _ => "function"
  | .object .userdata _ => "userdata"
  | .object .thread _ => "thread"
  | .object .proto _ => "proto"
  | .deadkey _ => "upval"

/-- `l_isfalse` -/
def TValue.isFalse {N : Type} : TValue N → Bool
  | .nil | .boolean false => true
  | _ => false

section

variable {N : Type} [GafqNumber N] (numlt numle : N → N → Bool) (str : Nat → List UInt8)
  (strcoll : CString → CString → Int)

/-- `gafqG_ordererror` -/
def ordererror {A α : Type} (p1 p2 : TValue N) : Interaction (TagRequest N) A ComparisonError α :=
  let t1 := p1.typename
  let t2 := p2.typename
  -- two types are taken for one when their names have the same third letter
  if t1.toList[2]? = t2.toList[2]? then .fail (.runerror ("attempt to compare two " ++ t1 ++ " values"))
  else .fail (.runerror ("attempt to compare " ++ t1 ++ " with " ++ t2))

/-- `call_orderTM`; `none` if the operands have no metamethod for the event. -/
def callOrderTM (p1 p2 : TValue N) (event : TMS) :
    Interaction (TagRequest N) (TValue N) ComparisonError (Option Bool) := do
  let tm1 ← .request (.gettmbyobj p1 event)
  -- no metamethod?
  if tm1.isNil then return none
  let tm2 ← .request (.gettmbyobj p2 event)
  -- different metamethods?
  if !rawequalObj tm1 tm2 then return none
  let res ← .request (.callTMres tm1 p1 p2)
  return some !res.isFalse

/-- `l_strcmp` on two string objects. -/
def strcmpObj (a b : Nat) : Interaction (TagRequest N) (TValue N) ComparisonError Int :=
  match strcmp strcoll (str a) (str b) with
  | some res => .done res
  | none => .fail .outside

/-- `gafqV_lessthan` -/
def lessthan (l r : TValue N) : Interaction (TagRequest N) (TValue N) ComparisonError Bool :=
  if l.ttype ≠ r.ttype then ordererror l r
  else match l, r with
    | .number a, .number b => return numlt a b
    | .string a, .string b => return decide ((← strcmpObj str strcoll a b) < 0)
    | _, _ => do
      match ← callOrderTM l r .lt with
      | some res => return res
      | none => ordererror l r

/-- `lessequal` -/
def lessequal (l r : TValue N) : Interaction (TagRequest N) (TValue N) ComparisonError Bool :=
  if l.ttype ≠ r.ttype then ordererror l r
  else match l, r with
    | .number a, .number b => return numle a b
    | .string a, .string b => return decide ((← strcmpObj str strcoll a b) ≤ 0)
    | _, _ => do
      -- first try `le'
      match ← callOrderTM l r .le with
      | some res => return res
      | none =>
        -- else try `lt'
        match ← callOrderTM r l .lt with
        | some res => return !res
        | none => ordererror l r

end

end Gafq
