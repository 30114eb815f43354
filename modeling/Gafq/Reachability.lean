import Gafq.GC

/-! # References and reachability

What an object refers to, in a state of the heap.  A reference from a weak position of a weak table
is a reference, but not a strong one.
-/

namespace Gafq.GC

variable {N : Type}

def Udata.refs (u : Udata) : List GCRef := u.metatable.toList.map .table ++ [.table u.env]

def ProtoObject.refs (f : ProtoObject N) : List GCRef :=
  f.source.toList.map .string ++ (f.k.filterMap gcvalue ++ ((f.upvalues.filterMap id).map .string ++
    ((f.p.filterMap id).map .proto ++ (f.locvars.filterMap id).map .string)))

def Closure.refs : Closure N → List GCRef
  | .c env upvalue => .table env :: upvalue.filterMap gcvalue
  | .gafq env p upvals => .table env :: .proto p :: upvals.map .upval

/-- The first slot that no function of the interpreter will use without writing to it first. -/
def ThreadObject.exposed (th : ThreadObject N) : Nat :=
  (th.ci.filter fun ci => !ci.isC).foldl (fun lim ci => max lim ci.top) th.top

def ThreadObject.Refers (th : ThreadObject N) (r : GCRef) : Prop :=
  gcvalue th.gt = some r ∨ ∃ i < th.exposed, gcvalue (th.stack i) = some r

/-- The table refers to the object by its metatable or an entry that has a value. -/
def TableObject.Refers (x : TableObject N) (r : GCRef) : Prop :=
  x.metatable.map .table = some r ∨ (∃ i < x.h.sizearray, gcvalue (x.h.array i) = some r) ∨
  ∃ i < x.h.sizenode, (x.h.node i).val ≠ .nil ∧ (gcvalue (x.h.node i).key = some r ∨ gcvalue (x.h.node i).val = some r)

namespace State

def Refers (s : State N) : GCRef → GCRef → Prop
  | .string _, _ => False
  | .udata a, r => r ∈ (s.udata a).refs
  | .proto a, r => r ∈ (s.proto a).refs
  | .closure a, r => r ∈ (s.closure a).refs
  | .table a, r => (s.table a).Refers r
  | .upval a, r => gcvalue (s.upvalValue a) = some r
  | .thread a, r => (s.thread a).Refers r

/-- A reference that the collector follows: not from a weak position, and not from above the top of
a stack. -/
def StrongRefers (s : State N) (o r : GCRef) : Prop :=
  match o with
  | .table a =>
    (s.table a).metatable.map .table = some r ∨
    ((s.mode a).2 = false ∧ ∃ i < (s.table a).h.sizearray, gcvalue ((s.table a).h.array i) = some r) ∨
    ∃ i < (s.table a).h.sizenode, ((s.table a).h.node i).val ≠ .nil ∧
      ((s.mode a).1 = false ∧ gcvalue ((s.table a).h.node i).key = some r ∨
       (s.mode a).2 = false ∧ gcvalue ((s.table a).h.node i).val = some r)
  | .thread a => gcvalue (s.thread a).gt = some r ∨ ∃ i < (s.thread a).top, gcvalue ((s.thread a).stack i) = some r
  | o => s.Refers o r

/-- The main thread, the registry, the metatables of the basic types and the running thread. -/
inductive Root (s : State N) : GCRef → Prop
  | mainthread : Root s (.thread s.mainthread)
  | registry : Root s (.table s.registry)
  | mt (tag : BasicType) {a : Nat} : s.mt tag = some a → Root s (.table a)
  | running : Root s (.thread s.running)

def Reachable (s : State N) (r : GCRef) : Prop := ∃ root, s.Root root ∧ Relation.ReflTransGen s.Refers root r

def StronglyReachable (s : State N) (r : GCRef) : Prop :=
  ∃ root, s.Root root ∧ Relation.ReflTransGen s.StrongRefers root r

end State

end Gafq.GC
