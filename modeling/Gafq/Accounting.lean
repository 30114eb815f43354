import Gafq.FullGC

/-! # The accounts of the collector

`gmem.c` keeps `totalbytes`, the number of bytes in use, and `ggc.c` an `estimate` of how many of these
will be in use after the sweep.  The heap says which objects there are; the accounts add how large
they are, the sizes of the shared buffer and of everything else, and the estimate.

Sizes are those of a 64-bit machine.  The size of a table is read off the table; what `propagatemark`
reports for one is not quite that, since it takes `dummynode` for a vector of the table.  For all other
objects it reports the size that has been allocated.
-/

namespace Gafq.GC

variable {N : Type}

/-! ## Sizes -/

/-- `sizeof(Table)`. -/
def sizeofTable : Nat := 64

/-- `sizeof(TValue)`. -/
def sizeofTValue : Nat := 16

/-- `sizeof(Node)`. -/
def sizeofNode : Nat := 40

/-- `sizeof(GCObject *)`, the size of an entry of the string table. -/
def sizeofPointer : Nat := 8

/-- The nodes that `propagatemark` counts and that have not been allocated. -/
def Table.dummyBytes (h : Gafq.Table N) : Nat := if h.isDummy then sizeofNode * h.sizenode else 0

/-- The memory of a table. -/
def Table.bytes (h : Gafq.Table N) : Nat :=
  sizeofTable + sizeofTValue * h.sizearray + if h.isDummy then 0 else sizeofNode * h.sizenode

/-- What `propagatemark` returns for a table. -/
def Table.traversed (h : Gafq.Table N) : Nat := sizeofTable + sizeofTValue * h.sizearray + sizeofNode * h.sizenode

/-- `GAFQ_MINBUFFER`. -/
def minBuffer : Nat := 32

/-- `GCFINALIZECOST`. -/
def finalizeCost : UInt64 := 100

namespace State

/-- The memory of an object; `size` is what has been allocated for one that is no table. -/
def bytes (size : GCRef → Nat) (s : State N) : GCRef → Nat
  | .table a => Table.bytes (s.table a).h
  | r => size r

/-- What `propagatemark` returns for an object. -/
def traversed (size : GCRef → Nat) (s : State N) : GCRef → Nat
  | .table a => Table.traversed (s.table a).h
  | r => size r

/-- The nodes of an object that are counted and that are not there. -/
def dummyBytes (s : State N) : GCRef → Nat
  | .table a => Table.dummyBytes (s.table a).h
  | _ => 0

/-- The objects that have not been freed. -/
def allocated (s : State N) : Finset GCRef := s.objects.toFinset.filter fun r => s.colour r ≠ none

/-- The sum of what the calls of `propagatemark` in `propagateLoop` return. -/
def traversedBytes (size : GCRef → Nat) (s : State N) : Nat → Nat
  | 0 => 0
  | fuel + 1 =>
    match s.gray with
    | [] => 0
    | o :: _ => s.propagatemark.traversed size o + s.propagatemark.traversedBytes size fuel

/-- The result of `propagateall`. -/
def propagated (size : GCRef → Nat) (s : State N) : Nat := s.traversedBytes size (s.gray.length + s.objects.length)

/-- `atomic` up to the call of `gafqC_separateudata`. -/
def beforeSeparation (s : State N) : State N :=
  let s := s.remarkupvals.propagateall
  let s := { s with gray := s.weak, weak := [] }
  let s := (s.markobject (.thread s.running)).markmt.propagateall
  { s with gray := s.grayagain, grayagain := [] }.propagateall

/-- The result of `gafqC_separateudata`: the size of the userdata that it puts at the end of `tmudata`. -/
def deadmem (size : GCRef → Nat) (s : State N) : Nat :=
  (((s.separateudata false).tmudata.drop s.tmudata.length).map fun u => size (.udata u)).sum

/-- The local variable `udsize` of `atomic`. -/
def udsize (size : GCRef → Nat) (s : State N) : Nat :=
  let s := s.beforeSeparation
  s.deadmem size + (s.separateudata false).marktmu.propagated size

/-- The sweep of `rootgc` comes to its end in the next step. -/
def LastSweep (s : State N) : Prop := s.gcstate = .sweep ∧ (s.sweeplist sweepMax).unswept.isEmpty = true

instance (s : State N) : Decidable s.LastSweep := inferInstanceAs (Decidable (_ ∧ _))

end State

/-! ## Accounts -/

/-- Who runs: the program, or one of the two loops of `gafqC_fullgc`. -/
inductive Mode where
  | program | finishing | collecting
deriving DecidableEq, Repr

structure Accounts (N : Type) where
  heap : State N
  /-- the memory of the objects that are no tables -/
  size : GCRef → Nat
  /-- `g->buff.buffsize` -/
  buffsize : Nat
  /-- all other memory -/
  other : Nat
  estimate : UInt64
  /-- calls of `GCTM` that have called a tag method and have not returned -/
  finalizers : Nat := 0
  mode : Mode := .program

/-- `GCSfinalize` after `GCTM` has returned. -/
def payFinalizer (estimate : UInt64) : UInt64 := if finalizeCost < estimate then estimate - finalizeCost else estimate

/-- The part of `checkSizes` that looks at the size of the buffer. -/
def checkBuffer (buffsize : Nat) : Nat := if minBuffer * 2 < buffsize then buffsize / 2 else buffsize

namespace Accounts

def bytes (a : Accounts N) (r : GCRef) : Nat := a.heap.bytes a.size r

/-- `g->totalbytes`. -/
def totalbytes (a : Accounts N) : Nat :=
  ∑ r ∈ a.heap.allocated, a.bytes r + sizeofPointer * a.heap.strt.length + a.buffsize + a.other

/-- The memory of the objects that the sweep will free. -/
def deadbytes (a : Accounts N) : Nat := ∑ r ∈ a.heap.allocated.filter fun r => a.heap.collects r = true, a.bytes r

/-- `singlestep`. -/
def singlestep (a : Accounts N) : Accounts N :=
  let a' := { a with heap := a.heap.singlestep }
  match a.heap.gcstate with
  | .pause => a'
  | .propagate =>
    if a.heap.gray.isEmpty then
      -- first estimate
      { a' with estimate := UInt64.ofNat a'.totalbytes - UInt64.ofNat (a.heap.udsize a.size) }
    else a'
  | .sweepstring => { a' with estimate := a.estimate - (UInt64.ofNat a.totalbytes - UInt64.ofNat a'.totalbytes) }
  | .sweep =>
    let a' := if a.heap.LastSweep then { a' with buffsize := checkBuffer a.buffsize } else a'
    { a' with estimate := a.estimate - (UInt64.ofNat a.totalbytes - UInt64.ofNat a'.totalbytes) }
  | .finalize =>
    match a.heap.tmudata with
    | [] => a'
    | u :: _ =>
      if (a.heap.gcmethod u).isNil then { a' with estimate := payFinalizer a.estimate }
      -- the tag method has been called
      else { a' with finalizers := a.finalizers + 1 }

/-- `gafqZ_openspace` of the shared buffer. -/
def openspace (a : Accounts N) (n : Nat) : Accounts N :=
  if a.buffsize < n then { a with buffsize := max n minBuffer } else a

section Steps

variable [GafqNumber N]

/-- What the program does between two steps of the collector.  Objects that it cannot get at do not
change their size. -/
structure Program (a a' : Accounts N) : Prop where
  heap : a'.heap = a.heap ∨ State.Mutates a.heap a'.heap
  bytes : ∀ {r}, a.heap.marked r ≠ none → ¬ a.heap.Reachable r → a'.bytes r = a.bytes r
  buffsize : a'.buffsize = a.buffsize
  estimate : a'.estimate = a.estimate
  finalizers : a'.finalizers = a.finalizers
  mode : a'.mode = a.mode

/-- One step of the system. -/
inductive Step (a : Accounts N) : Accounts N → Prop
  | singlestep : a.mode = .program ∨ a.heap.gcstate ≠ .finalize → Step a a.singlestep
  /-- `checkstacksizes` of a thread that is traversed. -/
  | checkstacksizes (th : Nat) {size : Nat} : a.heap.gcstate = .propagate → size ≤ a.size (.thread th) →
      Step a { a with size := Function.update a.size (.thread th) size }
  | program {a' : Accounts N} : a.mode = .program → Program a a' → Step a a'
  | openspace (n : Nat) : a.mode = .program → Step a (a.openspace n)
  /-- A tag method returns to `GCTM`, possibly in another cycle than the one that called it. -/
  | returns {n : Nat} : a.mode = .program → a.finalizers = n + 1 →
      Step a { a with finalizers := n, estimate := payFinalizer a.estimate }
  /-- A tag method raises an error. -/
  | raises {n : Nat} : a.mode = .program → a.finalizers = n + 1 → Step a { a with finalizers := n }
  /-- `gafqC_fullgc` is called. -/
  | fullgc : a.mode = .program → Step a { a with heap := a.heap.abandon, mode := .finishing }
  /-- `gafqC_fullgc` has finished the sweep that was under way. -/
  | markroot : a.mode = .finishing → a.heap.gcstate = .finalize →
      Step a { a with heap := a.heap.markroot, mode := .collecting }
  /-- The rest of the second loop of `gafqC_fullgc` may call tag methods. -/
  | finalizes : a.mode = .collecting → a.heap.gcstate = .finalize → Step a { a with mode := .program }

end Steps

/-- After `gafq_newstate`, which does not set `estimate`. -/
structure IsNew (a : Accounts N) : Prop where
  heap : a.heap = State.newstate
  finalizers : a.finalizers = 0
  mode : a.mode = .program
  fits : a.totalbytes < 2 ^ 64

/-- The collector is between its atomic step and the end of the sweep. -/
def Sweeping (a : Accounts N) : Prop := a.heap.gcstate = .sweepstring ∨ a.heap.gcstate = .sweep

/-- The next step of the collector takes no more from `estimate` than there is. -/
def NoWrap (a : Accounts N) : Prop :=
  a.singlestep.totalbytes ≤ a.totalbytes ∧ a.totalbytes - a.singlestep.totalbytes ≤ a.estimate.toNat

/-! ## A condition for the estimate to be good -/

/-- What the atomic step counts as traversed, and the objects that it leaves dead, are no larger than everything is. -/
def Estimated (a : Accounts N) : Prop := a.heap.udsize a.size + a.singlestep.deadbytes ≤ a.totalbytes

/-- What `checkSizes` will give back: half of a sparse string table, and half of a large buffer. -/
def shrinkage (a : Accounts N) : Nat :=
  (if a.heap.nuse < a.heap.strt.length / 4 ∧ minStrTabSize * 2 < a.heap.strt.length then
    sizeofPointer * (a.heap.strt.length - a.heap.strt.length / 2) else 0) + (a.buffsize - checkBuffer a.buffsize)

/-- The dead objects and what `checkSizes` will give back are covered by the estimate. -/
def Covered (a : Accounts N) : Prop := a.heap.LastSweep → a.deadbytes + a.shrinkage ≤ a.estimate.toNat

/-- The atomic step makes an estimate that covers the objects it leaves dead; when the sweep
ends, the estimate covers what is given back; and a tag method that returns to an earlier cycle in the
middle of a sweep leaves enough of it. -/
structure Covers (a a' : Accounts N) : Prop where
  marked : a.heap.gcstate = .propagate → a.heap.gray = [] → a.Estimated
  swept : a.Covered
  returned : a.Sweeping → a'.finalizers < a.finalizers → a.deadbytes ≤ a'.estimate.toNat

section Runs

variable [GafqNumber N]

/-- A run in which `totalbytes` does not overflow. -/
abbrev Run (a a' : Accounts N) : Prop :=
  Relation.ReflTransGen (fun a a' => Step a a' ∧ a'.totalbytes < 2 ^ 64) a a'

/-- A run whose steps all meet the condition. -/
abbrev CoveredRun (a a' : Accounts N) : Prop :=
  Relation.ReflTransGen (fun a a' => Step a a' ∧ a'.totalbytes < 2 ^ 64 ∧ Covers a a') a a'

end Runs

end Accounts

end Gafq.GC
