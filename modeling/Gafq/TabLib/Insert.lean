import Gafq.Boundary
import Gafq.TagMethods

/-! # `table.insert` and `table.remove`

`tinsert` and `tremove` of `gtablib.c`, on a raw table.  The length is a boundary of the table, and
`gafqL_setn` does nothing.
-/

namespace Gafq

variable {N : Type} [GafqNumber N] (mp : MainPosition N)

/-- `gafq_rawgeti` -/
def rawgeti (t : Table N) (n : Int) : TValue N := t.read (t.getnum mp n)

namespace TabLib

inductive TabError where
  /-- of a store -/
  | table (e : TableError)
  /-- `gafqL_error` -/
  | message (text : String)
  /-- the search for a boundary is not at its end -/
  | outOfFuel
deriving DecidableEq, Repr

abbrev TabM (N : Type) := EStateM TabError (Table N)

/-- A store as a part of a library function. -/
def raw {α : Type} (x : TableM N α) : TabM N α := fun t =>
  match x t with
  | .ok a t' => .ok a t'
  | .error e t' => .error (.table e) t'

variable (mem : Memory) (depth : Nat)

/-- `aux_getn` on a table; at most so many iterations are made. -/
def auxGetn (fuel : Nat) : TabM N Int := fun t =>
  match t.getn mp fuel with
  | some n => .ok n t
  | none => .error .outOfFuel t

end TabLib

end Gafq
