import Gafq.Heap

/-! # Marking and barriers

The first half of `ggc.c`: how objects are marked and traversed, and the barriers that keep the
mutator and the collector apart.

The recursion of `reallymarkobject` is unrolled: userdata mark tables, which are only put on the
gray list, and upvalues mark values, which are never upvalues.
-/

namespace Gafq.GC

variable {N : Type}

namespace State

/-! ## `reallymarkobject` -/

/-- Turn an object gray and put it on the gray list. -/
def linkgray (s : State N) (o : GCRef) : State N :=
  let s := s.white2gray o
  { s with gray := o :: s.gray }

/-- `markobject` of a table. -/
def marktable (s : State N) (a : Nat) : State N :=
  if s.iswhite (.table a) then s.linkgray (.table a) else s

def markmetatable (s : State N) : Option Nat → State N
  | some a => s.marktable a
  | none => s

/-- `reallymarkobject` on objects that can be values. -/
def reallymarkvalue (s : State N) (o : GCRef) : State N :=
  match o with
  | .string _ => s.white2gray o
  | .udata a =>
    -- udata are never gray
    let s := (s.white2gray o).gray2black o
    let s := s.markmetatable (s.udata a).metatable
    s.marktable (s.udata a).env
  | _ => s.linkgray o

def markvalue (s : State N) (v : TValue N) : State N :=
  match gcvalue v with
  | some o => if s.iswhite o then s.reallymarkvalue o else s
  | none => s

def markvalues (s : State N) (vs : List (TValue N)) : State N := vs.foldl markvalue s

def reallymarkobject (s : State N) (o : GCRef) : State N :=
  match o with
  | .upval a =>
    let s := s.white2gray o
    let s := s.markvalue (s.upvalValue a)
    match s.upval a with
    | .closed _ => s.gray2black o
    -- open upvalues are never black
    | .inStack _ _ => s
  | _ => s.reallymarkvalue o

def markobject (s : State N) (o : GCRef) : State N :=
  if s.iswhite o then s.reallymarkobject o else s

def markobjects (s : State N) (os : List GCRef) : State N := os.foldl markobject s

/-! ## Traversal -/

/-- `gafqH_getstr` of a metatable's entry, by a search through all nodes. -/
def gettm (s : State N) (events ename : Nat) : TValue N :=
  let h := (s.table events).h
  match (List.range h.sizenode).find? fun i => gcvalue (h.node i).key == some (.string ename) with
  | some i => (h.node i).val
  | none => .nil

/-- The weak mode of a table: whether its keys and its values are weak. -/
def mode (s : State N) (a : Nat) : Bool × Bool :=
  match (s.table a).metatable with
  | none => (false, false)
  | some mt =>
    match s.gettm mt s.tmMode with
    | .string m =>
      -- `strchr` stops at the first `\0`
      let chars := (s.string m).takeWhile (· != 0)
      (chars.contains 107, chars.contains 118)
    | _ => (false, false)

end State

/-- Remove empty entries. -/
def removeentries (h : Gafq.Table N) : Gafq.Table N :=
  { h with node := fun i => if (h.node i).val.isNil then { h.node i with key := deadkey (h.node i).key } else h.node i }

/-- The values of the array part, last one first. -/
def arrayValues (h : Gafq.Table N) : List (TValue N) := (List.range h.sizearray).reverse.map h.array

/-- The nodes in use, last one first. -/
def liveNodes (h : Gafq.Table N) : List (Node N) :=
  ((List.range h.sizenode).reverse.map h.node).filter fun n => !n.val.isNil

/-- The first stack slot above all frames. -/
def ThreadObject.lim (th : ThreadObject N) : Nat := th.ci.foldl (fun lim ci => max lim ci.top) th.top

namespace State

/-- Marks the strong parts of a table; a weak table goes to the list `weak`. -/
def traversetable (s : State N) (a : Nat) : State N × Bool :=
  let s := s.markmetatable (s.table a).metatable
  let (weakkey, weakvalue) := s.mode a
  let s :=
    if weakkey || weakvalue then
      let s := s.setTable a { s.table a with weakkey, weakvalue }
      { s with weak := .table a :: s.weak }
    else s
  if weakkey && weakvalue then (s, true)
  else
    let h := (s.table a).h
    let s := if weakvalue then s else s.markvalues (arrayValues h)
    let s := s.markvalues ((liveNodes h).flatMap fun n =>
      (if weakkey then [] else [n.key]) ++ if weakvalue then [] else [n.val])
    (s.setTable a { s.table a with h := removeentries h }, weakkey || weakvalue)

/-- `stringmark` of the names that are there. -/
def stringmarks (s : State N) (names : List (Option Nat)) : State N :=
  (names.filterMap id).foldl (fun s a => s.white2gray (.string a)) s

def traverseproto (s : State N) (a : Nat) : State N :=
  let f := s.proto a
  let s := s.stringmarks [f.source]
  let s := s.markvalues f.k
  let s := s.stringmarks f.upvalues
  let s := s.markobjects ((f.p.filterMap id).map .proto)
  s.stringmarks f.locvars

def traverseclosure (s : State N) (a : Nat) : State N :=
  match s.closure a with
  | .c env upvalue => (s.marktable env).markvalues upvalue
  | .gafq env p upvals => (s.marktable env).markobjects (.proto p :: upvals.map .upval)

def traversestack (s : State N) (a : Nat) : State N :=
  let th := s.thread a
  let s := s.markvalue th.gt
  let s := s.markvalues ((List.range th.top).map th.stack)
  s.setThread a { th with stack := fun i => if th.top ≤ i ∧ i ≤ th.lim then .nil else th.stack i }

/-- Traverse one gray object, turning it to black. -/
def propagatemark (s : State N) : State N :=
  match s.gray with
  | [] => s
  | o :: rest =>
    let s := { s.gray2black o with gray := rest }
    match o with
    | .table a =>
      let (s, weak) := s.traversetable a
      if weak then s.black2gray o else s
    | .closure a => s.traverseclosure a
    | .thread a => ({ s with grayagain := o :: s.grayagain }.black2gray o).traversestack a
    | .proto a => s.traverseproto a
    | _ => s

/-! ## Barriers -/

def barrierf (s : State N) (o v : GCRef) : State N :=
  if s.gcstate = .propagate then s.reallymarkobject v else s.makewhite o

def barrierback (s : State N) (a : Nat) : State N :=
  let s := s.black2gray (.table a)
  { s with grayagain := .table a :: s.grayagain }

/-- `gafqC_objbarrier`. -/
def objbarrier (s : State N) (p o : GCRef) : State N :=
  if s.iswhite o && s.isblack p then s.barrierf p o else s

/-- `gafqC_barrier`. -/
def barrier (s : State N) (p : GCRef) (v : TValue N) : State N :=
  match gcvalue v with
  | some o => s.objbarrier p o
  | none => s

/-- `gafqC_objbarriert`. -/
def objbarriert (s : State N) (t : Nat) (o : GCRef) : State N :=
  if s.iswhite o && s.isblack (.table t) then s.barrierback t else s

/-- `gafqC_barriert`. -/
def barriert (s : State N) (t : Nat) (v : TValue N) : State N :=
  match gcvalue v with
  | some o => s.objbarriert t o
  | none => s

/-! ## New objects -/

/-- Put an object at the head of `rootgc`. -/
def linkroot (s : State N) (o : GCRef) : State N :=
  match s.swept with
  -- `sweepgc` is the address of `rootgc` itself
  | [] => { s with unswept := o :: s.unswept }
  | swept => { s with swept := o :: swept }

/-- The mark of a new object. -/
def marknew (s : State N) (o : GCRef) : State N :=
  { s with
    marked := Function.update s.marked o (some (.white s.currentwhite))
    fixed := Function.update s.fixed o false }

def link (s : State N) (o : GCRef) : State N := (s.linkroot o).marknew o

def linkupval (s : State N) (a : Nat) : State N :=
  let s := s.linkroot (.upval a)
  if s.isgray (.upval a) then
    if s.gcstate = .propagate then (s.gray2black (.upval a)).barrier (.upval a) (s.upvalValue a)
    -- sweep phase: sweep it (turning it into white)
    else s.makewhite (.upval a)
  else s

end State

end Gafq.GC
