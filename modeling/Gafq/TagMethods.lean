import Gafq.Traversal
import Gafq.Opcodes
import Gafq.Base.Ensures

/-! # Tag methods

The lookup of tag methods in `gtm.c` and the accesses that use it: `gafqV_gettable`, `gafqV_settable`,
`gafq_rawset`, `gafq_rawseti` and the stores of `OP_SETLIST`.  A table remembers in its flags which tag
methods it does not have, and `fasttm` believes it.

The state has the tables and the metatables of all values.  An access that ends in the call of a tag method
ends there in the model; what the call does are other steps.
-/

namespace Gafq

variable {N : Type}

/-- ORDER TM -/
inductive TMS where
  | index | newindex | gc | mode | eq | add | sub | mul | div | mod | pow | unm | len | lt | le | concat | call
deriving DecidableEq, Repr

/-- The number of an event. -/
def TMS.toNat (e : TMS) : Nat := e.ctorIdx

/-- `ttype` of the values that a program holds. -/
def TValue.ttype : TValue N → Nat
  | .nil => 0
  | .boolean _ => 1
  | .lightuserdata _ => 2
  | .number _ => 3
  | .string _ => 4
  | .object .table _ => 5
  | .object .function _ => 6
  | .object .userdata _ => 7
  | .object .thread _ => 8
  | .object .proto _ => 9
  | .deadkey _ => 11

/-- `ttisfunction` -/
def TValue.isFunction : TValue N → Bool
  | .object .function _ => true
  | _ => false

/-- Tables, and who has which metatable.  An address where there is no table yet has an empty one. -/
structure Metatables (N : Type) where
  table : Nat → Table N
  /-- `h->metatable` -/
  metatable : Nat → Option Nat
  /-- `uvalue(o)->metatable` -/
  udata : Nat → Option Nat
  /-- `G(L)->mt` -/
  mt : Nat → Option Nat

namespace Metatables

def setTable (g : Metatables N) (a : Nat) (t : Table N) : Metatables N :=
  { g with table := Function.update g.table a t }

/-- Before the first table is created. -/
def initial : Metatables N where
  table _ := Table.empty
  metatable _ := none
  udata _ := none
  mt _ := none

end Metatables

/-! ## Lookup -/

/-- `1u<<e` as a byte -/
def TMS.mask (e : TMS) : UInt8 := UInt8.ofNat (1 <<< e.toNat)

/-- The table has noted that it does not have the tag method. -/
def Table.noted (t : Table N) (e : TMS) : Bool := t.flags.toNat.testBit e.toNat

/-- What a tag access has found. -/
inductive Access (N : Type) where
  | value (v : TValue N)
  /-- the value has been stored -/
  | done
  | call (f : TValue N) (args : List (TValue N))
  | typeError (t : TValue N)
  | tableError (e : TableError)
  | loop
deriving DecidableEq, Repr

/-- `MAXTAGLOOP` -/
def maxTagLoop : Nat := 100

section

variable [GafqNumber N] (mp : MainPosition N) (tmname : TMS → Nat)

/-- The field of the table for a tag method. -/
def Table.tagMethod (t : Table N) (e : TMS) : TValue N := t.read (t.getstr mp (tmname e))

/-- `gafqT_gettm` -/
def gettm (events : Table N) (e : TMS) : Option (TValue N) × Table N :=
  let tm := events.tagMethod mp tmname e
  -- no tag method?  cache this fact
  if tm.isNil then (none, { events with flags := events.flags ||| e.mask }) else (some tm, events)

/-- `fasttm` and `gfasttm` -/
def fasttm (et : Option Nat) (e : TMS) (g : Metatables N) : Option (TValue N) × Metatables N :=
  match et with
  | none => (none, g)
  | some a =>
    if (g.table a).noted e then (none, g)
    else
      let (tm, t) := gettm mp tmname (g.table a) e
      (tm, g.setTable a t)

/-- `gafqT_gettmbyobj` -/
def gettmbyobj (o : TValue N) (e : TMS) (g : Metatables N) : TValue N :=
  let mt := match o with
    | .object .table a => g.metatable a
    | .object .userdata a => g.udata a
    | _ => g.mt o.ttype
  match mt with
  | some a => (g.table a).tagMethod mp tmname e
  | none => .nil

/-! ## Accesses -/

/-- The loop of `gafqV_gettable`. -/
def gettableLoop : Nat → TValue N → TValue N → Metatables N → Access N × Metatables N
  | 0, _, _, g => (.loop, g)
  | left + 1, t, key, g =>
    let continueWith (tm : TValue N) (g : Metatables N) :=
      if tm.isFunction then (.call tm [t, key], g) else gettableLoop left tm key g
    match t with
    | .object .table a =>
      -- do a primitive get
      let res := (g.table a).read ((g.table a).getSlot mp key)
      if !res.isNil then (.value res, g)
      else
        match fasttm mp tmname (g.metatable a) .index g with
        | (none, g) => (.value res, g)
        | (some tm, g) => continueWith tm g
    | t =>
      let tm := gettmbyobj mp tmname t .index g
      if tm.isNil then (.typeError t, g) else continueWith tm g

/-- `gafqV_gettable` -/
def gettable (t key : TValue N) (g : Metatables N) : Access N × Metatables N :=
  gettableLoop mp tmname maxTagLoop t key g

variable (depth : Nat)

/-- The loop of `gafqV_settable`; `mem` says for each iteration which allocations succeed. -/
def settableLoop (mem : Nat → Memory) : Nat → TValue N → TValue N → TValue N → Metatables N → Access N × Metatables N
  | 0, _, _, _, g => (.loop, g)
  | left + 1, t, key, val, g =>
    let continueWith (tm : TValue N) (g : Metatables N) :=
      if tm.isFunction then (.call tm [t, key, val], g) else settableLoop mem left tm key val g
    match t with
    | .object .table a =>
      -- do a primitive set
      match Table.setWith mp (Table.rehashAndSet mp (mem left) depth) key (g.table a) with
      | .error e h => (.tableError e, g.setTable a h)
      | .ok oldval h =>
        let g := g.setTable a h
        let store (g : Metatables N) := g.setTable a { (g.table a).write oldval val with flags := 0 }
        if !(h.read oldval).isNil then (.done, store g)
        else
          match fasttm mp tmname (g.metatable a) .newindex g with
          | (none, g) => (.done, store g)
          | (some tm, g) => continueWith tm g
    | t =>
      let tm := gettmbyobj mp tmname t .newindex g
      if tm.isNil then (.typeError t, g) else continueWith tm g

/-- `gafqV_settable` -/
def settable (mem : Nat → Memory) (t key val : TValue N) (g : Metatables N) : Access N × Metatables N :=
  settableLoop mp tmname depth mem maxTagLoop t key val g

/-- `gafq_rawset` -/
def rawset (mem : Memory) (key v : TValue N) : TableM N Unit :=
  Table.storeAt (Table.setWith mp (Table.rehashAndSet mp mem depth) key) v

/-- `gafq_rawseti` -/
def rawseti (mem : Memory) (n : Int) (v : TValue N) : TableM N Unit :=
  Table.storeAt (Table.setnumWith mp (Table.rehashAndSet mp mem depth) n) v

/-- The store of a field by `gafqH_setstr`. -/
def storestr (mem : Memory) (s : Nat) (v : TValue N) : TableM N Unit :=
  Table.storeAt (Table.setstrWith mp (Table.rehashAndSet mp mem depth) s) v

/-- The loop of `OP_SETLIST`, with the values last one first. -/
def setlistLoop (mem : Nat → Memory) : Int → List (TValue N) → TableM N Unit
  | _, [] => pure ()
  | last, val :: vals => do
    Table.storeAt (Table.setnumWith mp (Table.rehashAndSet mp (mem vals.length) depth) last) val
    setlistLoop mem (last - 1) vals

/-- `last` of `OP_SETLIST` -/
def setlistLast (c : Int) (vals : List (TValue N)) : Int := (c - 1) * lfieldsPerFlush + vals.length

/-- `OP_SETLIST` -/
def setlist (mem : Nat → Memory) (c : Int) (vals : List (TValue N)) : TableM N Unit := do
  let h ← get
  let last := setlistLast c vals
  if last > h.sizearray then
    -- pre-alloc it at once
    Table.resizearray mp (mem vals.length) depth last.toNat
  setlistLoop mp depth mem last vals.reverse

end

/-! ## Runs -/

/-- What happens to a table.  Allocations succeed or fail; an operation that fails leaves the table as it is then.
A program holds no dead keys, and the C variables for indices are of type `int`. -/
inductive TableStep [GafqNumber N] (mp : MainPosition N) (tmname : TMS → Nat) (t : Table N) : Table N → Prop
  | rawset (mem : Memory) (depth : Nat) {key : TValue N} (v : TValue N) (live : ∀ a, key ≠ .deadkey a) :
      TableStep mp tmname t (Base.finalState (rawset mp depth mem key v) t)
  | rawseti (mem : Memory) (depth : Nat) {n : Int} (v : TValue N) (inInt : InInt n) :
      TableStep mp tmname t (Base.finalState (rawseti mp depth mem n v) t)
  | setlist (mem : Nat → Memory) (depth : Nat) {c : Int} {vals : List (TValue N)}
      (first : InInt ((c - 1) * lfieldsPerFlush)) (last : InInt (setlistLast c vals)) :
      TableStep mp tmname t (Base.finalState (setlist mp depth mem c vals) t)
  /-- the field `n` that `adjust_varargs` stores in the table `arg`: not the name of a tag method -/
  | storestr (mem : Memory) (depth : Nat) {s : Nat} (v : TValue N) (notName : ∀ e, tmname e ≠ s) :
      TableStep mp tmname t (Base.finalState (storestr mp depth mem s v) t)
  /-- the collector clears an entry of a weak table -/
  | clear (slot : Slot) : TableStep mp tmname t (t.write slot .nil)
  /-- the collector marks the key of an empty entry dead -/
  | removeentry (i : Nat) (empty : (t.node i).val = .nil) : TableStep mp tmname t (t.removeentry i)

inductive MetatableStep [GafqNumber N] (mp : MainPosition N) (tmname : TMS → Nat) (g : Metatables N) : Metatables N → Prop
  /-- `gafqH_new` -/
  | new {mem : Memory} (a : Nat) {narray nhash : Nat} {t : Table N} (inInt : InInt narray)
      (created : Table.new mem narray nhash = .ok () t) :
      MetatableStep mp tmname g { g.setTable a t with metatable := Function.update g.metatable a none }
  /-- `gafq_setmetatable` -/
  | setmetatable (metatable udata mt : Nat → Option Nat) : MetatableStep mp tmname g { g with metatable, udata, mt }
  | settable (mem : Nat → Memory) (depth : Nat) (t : TValue N) {key : TValue N} (val : TValue N) (live : ∀ a, key ≠ .deadkey a) :
      MetatableStep mp tmname g (settable mp tmname depth mem t key val g).2
  | gettable (t key : TValue N) : MetatableStep mp tmname g (gettable mp tmname t key g).2
  /-- `get_compTM` and the collector -/
  | fasttm (et : Option Nat) (e : TMS) : MetatableStep mp tmname g (fasttm mp tmname et e g).2
  | table (a : Nat) {t : Table N} (step : TableStep mp tmname (g.table a) t) : MetatableStep mp tmname g (g.setTable a t)

/-- The tables of a run. -/
def MetatablesReached [GafqNumber N] (mp : MainPosition N) (tmname : TMS → Nat) : Metatables N → Prop :=
  Relation.ReflTransGen (MetatableStep mp tmname) Metatables.initial

end Gafq
