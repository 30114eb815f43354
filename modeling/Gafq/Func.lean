import Gafq.Mark

/-! # Upvalues

The functions of `gfunc.c` on open upvalues.  The `openupval` list of a thread is ordered by stack
position, highest first.
-/

namespace Gafq.GC

variable {N : Type}

namespace State

/-- The stack position of an open upvalue. -/
def level (s : State N) (u : Nat) : Option Nat :=
  match s.upval u with
  | .closed _ => none
  | .inStack _ level => some level

/-- `uv->v >= level` of an open upvalue. -/
def atOrAbove (s : State N) (level : Nat) (u : Nat) : Bool := (s.level u).any (level ≤ ·)

/-- `uv->v > level`. -/
def above (s : State N) (level : Nat) (u : Nat) : Bool := (s.level u).any (level < ·)

/-- `gafqF_findupval`: the upvalue for a slot and the state; `fresh` is the address for a new one. -/
def findupval (s : State N) (th level fresh : Nat) : Nat × State N :=
  let higher := (s.thread th).openupval.takeWhile (s.above level)
  let rest := (s.thread th).openupval.dropWhile (s.above level)
  let create :=
    let s := s.marknew (.upval fresh)
    let s := s.setUpval fresh (.inStack th level)
    -- chain it in the proper position
    let s := s.setThread th { s.thread th with openupval := higher ++ fresh :: rest }
    (fresh, { s with uvhead := fresh :: s.uvhead })
  match rest with
  | p :: _ =>
    if s.level p = some level then
      -- found a corresponding upvalue; resurrect it if it is dead
      (p, if s.isdead (.upval p) then s.changewhite (.upval p) else s)
    else create
  | [] => create

/-- `gafqF_freeupval` of an open upvalue. -/
def freeupval (s : State N) (u : Nat) : State N :=
  { s with uvhead := s.uvhead.filter (· != u) }.free (.upval u)

/-- One iteration of `gafqF_close`: `u` has been taken off the list. -/
def closeupval (s : State N) (u : Nat) : State N :=
  if s.isdead (.upval u) then s.freeupval u
  else
    let v := s.upvalValue u
    let s := { s with uvhead := s.uvhead.filter (· != u) }
    (s.setUpval u (.closed v)).linkupval u

/-- The loop of `gafqF_close` over the remaining list. -/
def closeLoop (s : State N) (th level : Nat) : List Nat → State N
  | [] => s
  | u :: rest =>
    if s.atOrAbove level u then
      let s := s.setThread th { s.thread th with openupval := rest }
      (s.closeupval u).closeLoop th level rest
    else s

/-- `gafqF_close`. -/
def close (s : State N) (th level : Nat) : State N := s.closeLoop th level (s.thread th).openupval

end State

end Gafq.GC
