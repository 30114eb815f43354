import Gafq.Table
import Gafq.Base.Loop

/-! # Boundaries of a table

`gafqH_getn` and `unbound_search` of `gtable.c`.  A boundary is an index `n` such that `t[n]` is not `nil`
and `t[n+1]` is `nil`, or 0 if `t[1]` is `nil`.  The indices are unsigned, and `gafqH_getnum` takes an `int`.
-/

namespace Gafq.Table

open Base (loop)

variable {N : Type} [GafqNumber N] (mp : MainPosition N)

/-- `MAX_INT` -/
def maxInt : Nat := 2 ^ 31 - 3

/-- An `unsigned int` as an `int`. -/
def toInt (u : Nat) : Int := if u < 2 ^ 31 then u else (u : Int) - 2 ^ 32

/-- `gafqH_getnum` with an unsigned index. -/
def index (t : Table N) (j : Nat) : TValue N := t.read (t.getnum mp (toInt j))

/-- The loops of `gafqH_getn` and `unbound_search`, with their variables. -/
inductive Searching where
  /-- the binary search in the array part -/
  | array (i j : Nat)
  /-- `i` is zero or a present index, and `j` doubles -/
  | unbound (i j : Nat)
  /-- the linear search -/
  | linear (i : Nat)
  /-- the binary search between a present and an absent index -/
  | binary (i j : Nat)

/-- One iteration. -/
def searchStep (t : Table N) : Searching → Searching ⊕ Int
  | .array i j =>
    if 1 < j - i then
      let m := (i + j) % 2 ^ 32 / 2
      if (t.array (m - 1)).isNil then .inl (.array i m) else .inl (.array m j)
    else .inr (toInt i)
  | .unbound i j =>
    if !(t.index mp j).isNil then
      let i := j
      let j := j * 2 % 2 ^ 32
      -- overflow?  table was built with bad purposes: resort to linear search
      if maxInt < j then .inl (.linear 1) else .inl (.unbound i j)
    else .inl (.binary i j)
  | .linear i =>
    if !(t.index mp i).isNil then .inl (.linear ((i + 1) % 2 ^ 32))
    else .inr (toInt (i - 1))
  | .binary i j =>
    if 1 < j - i then
      let m := (i + j) % 2 ^ 32 / 2
      if (t.index mp m).isNil then .inl (.binary i m) else .inl (.binary m j)
    else .inr (toInt i)

/-- `gafqH_getn`; at most so many iterations are made. -/
def getn (fuel : Nat) (t : Table N) : Option Int :=
  let j := t.sizearray
  -- there is a boundary in the array part?
  if 0 < j ∧ (t.array (j - 1)).isNil = true then loop (t.searchStep mp) fuel (.array 0 j)
  -- hash part is empty?
  else if t.isDummy then some (toInt j)
  else loop (t.searchStep mp) fuel (.unbound j ((j + 1) % 2 ^ 32))

end Gafq.Table
