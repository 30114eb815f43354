import Gafq.Table

/-! # Table traversal

`findindex` and `gafqH_next` of `gtable.c`.  A traversal numbers the elements of the array part and
then the nodes, and it recovers its position from the last key: from the key alone when that key
belongs to the array part, and by a search of its collision chain otherwise.  The node may have
been emptied since and its key marked dead by the collector; a dead key is recognised by its
address.
-/

namespace Gafq

variable {N : Type}

/-- `gcvalue` of a value that is `iscollectable`; a dead key still is. -/
def TValue.gcaddress : TValue N → Option Nat
  | .string a | .object _ a | .deadkey a => some a
  | _ => none

/-- `ttype(gkey(n)) == GAFQ_TDEADKEY && iscollectable(key) && gcvalue(gkey(n)) == gcvalue(key)`. -/
def TValue.isDeadkeyOf : TValue N → TValue N → Bool
  | .deadkey a, key => key.gcaddress == some a
  | _, _ => false

/-- `invalid key to 'next'`. -/
inductive TraversalError where
  | invalidKey
deriving DecidableEq, Repr

namespace Table

/-- `removeentry` on the node at position `i`. -/
def removeentry (t : Table N) (i : Nat) : Table N :=
  { t with node := Function.update t.node i { t.node i with key := deadkey (t.node i).key } }

variable [GafqNumber N] (mp : MainPosition N)

/-- The index of a key for a traversal: elements of the array part come first, nodes after them,
and `-1` is before the first. -/
def findindex (t : Table N) (key : TValue N) : Except TraversalError Int :=
  if key.isNil then .ok (-1)
  else if 0 < arrayindex key ∧ arrayindex key ≤ t.sizearray then .ok (arrayindex key - 1)
  else
    match t.search (fun k => rawequalObj k key || k.isDeadkeyOf key) (mp.pos t.lsizenode key) with
    | .node n => .ok (n + t.sizearray)
    | _ => .error .invalidKey

/-- The first element of the array part from index `i` on that is not `nil`. -/
def nextArray (t : Table N) (i : Nat) : Option Nat :=
  (List.range' i (t.sizearray - i)).find? fun j => !(t.array j).isNil

/-- The first node from position `i` on whose value is not `nil`. -/
def nextNode (t : Table N) (i : Nat) : Option Nat :=
  (List.range' i (t.sizenode - i)).find? fun j => !(t.node j).val.isNil

/-- `gafqH_next`: the next key and its value, or `none` at the end. -/
def nextEntry (t : Table N) (key : TValue N) : Except TraversalError (Option (TValue N × TValue N)) := do
  let i := (← t.findindex mp key) + 1
  match t.nextArray i.toNat with
  | some j => return some (.number (castNum ((j : Int) + 1)), t.array j)
  | none =>
    match t.nextNode (i.toNat - t.sizearray) with
    | some j => return some ((t.node j).key, (t.node j).val)
    | none => return none

/-- `gafqH_resizearray`, with the depth of rehashes inside of it. -/
def resizearray (mem : Memory) (depth nasize : Nat) : TableM N Unit := do
  let t ← get
  resizeWith mp (rehashAndSet mp mem depth) mem nasize (if t.isDummy then 0 else t.sizenode)

end Table

end Gafq
