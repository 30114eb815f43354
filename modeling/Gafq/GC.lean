import Gafq.Func
import Gafq.String

/-! # The collector

The second half of `ggc.c`: the atomic step that ends the mark phase, the sweep, and `singlestep`.
-/

namespace Gafq.GC

variable {N : Type}

namespace State

/-! ## Mark phase -/

def propagateLoop (s : State N) : Nat → State N
  | 0 => s
  | fuel + 1 => if s.gray.isEmpty then s else s.propagatemark.propagateLoop fuel

/-- Each iteration takes an object off the gray list, and only white objects are put on it. -/
def propagateall (s : State N) : State N := s.propagateLoop (s.gray.length + s.objects.length)

def markmt (s : State N) : State N := BasicType.all.foldl (fun s tag => s.markmetatable (s.mt tag)) s

/-- Mark root set. -/
def markroot (s : State N) : State N :=
  let s := { s with gray := [], grayagain := [], weak := [] }
  let s := s.markobject (.thread s.mainthread)
  -- make global table be traversed before main stack
  let s := s.markvalue (s.thread s.mainthread).gt
  let s := s.marktable s.registry
  let s := s.markmt
  { s with gcstate := .propagate }

def remarkupval (s : State N) (u : Nat) : State N :=
  if s.isgray (.upval u) then s.markvalue (s.upvalValue u) else s

def remarkupvals (s : State N) : State N := s.uvhead.foldl remarkupval s

/-- `fasttm` of a userdata's `__gc`. -/
def gcmethod (s : State N) (u : Nat) : TValue N :=
  match (s.udata u).metatable with
  | some mt => s.gettm mt s.tmGc
  | none => .nil

def markfinalized (s : State N) (u : Nat) : State N := s.setUdata u { s.udata u with finalized := true }

/-- The loop of `gafqC_separateudata`: what stays in the list, and the state. -/
def separateLoop (s : State N) (all : Bool) : List GCRef → List GCRef × State N
  | [] => ([], s)
  | .udata u :: rest =>
    if !(s.iswhite (.udata u) || all) || (s.udata u).finalized then
      -- don't bother with them
      let (kept, s) := s.separateLoop all rest
      (.udata u :: kept, s)
    else if (s.gcmethod u).isNil then
      -- don't need finalization
      let (kept, s) := (s.markfinalized u).separateLoop all rest
      (.udata u :: kept, s)
    else
      -- must call its gc method
      let s := s.markfinalized u
      { s with tmudata := s.tmudata ++ [u] }.separateLoop all rest
  | o :: rest =>
    let (kept, s) := s.separateLoop all rest
    (o :: kept, s)

/-- Move `dead` udata that need finalization to list `tmudata`; all udata come after the main
thread.  The position `sweepgc` is not valid after this. -/
def separateudata (s : State N) (all : Bool) : State N :=
  let root := s.rootgc
  let before := root.takeWhile (· != .thread s.mainthread)
  let (kept, s) := s.separateLoop all (root.dropWhile (· != .thread s.mainthread))
  { s with swept := [], unswept := before ++ kept }

/-- The body of `marktmu`. -/
def marktmudata (s : State N) (u : Nat) : State N := (s.makewhite (.udata u)).reallymarkobject (.udata u)

def marktmu (s : State N) : State N := s.tmudata.foldl marktmudata s

/-- The part of `iscleared` that is not about strings. -/
def iscleared (s : State N) (v : TValue N) (iskey : Bool) : Bool :=
  match gcvalue v with
  | none | some (.string _) => false
  | some (.udata u) => s.iswhite (.udata u) || (!iskey && (s.udata u).finalized)
  | some o => s.iswhite o

/-- The `stringmark` in `iscleared`. -/
def markstring (s : State N) (v : TValue N) : State N :=
  match v with
  | .string a => s.white2gray (.string a)
  | _ => s

/-- The contents of a weak table without collected entries. -/
def clearedTable (s : State N) (x : TableObject N) : Gafq.Table N :=
  { x.h with
    array := fun i => if x.weakvalue && s.iscleared (x.h.array i) false then .nil else x.h.array i
    node := fun i =>
      let n := x.h.node i
      if !n.val.isNil && (s.iscleared n.key true || s.iscleared n.val false) then
        { n with key := deadkey n.key, val := .nil }
      else n }

/-- The values that `cleartable` looks at in one table. -/
def lookedAt (s : State N) (x : TableObject N) : List (TValue N) :=
  (if x.weakvalue then arrayValues x.h else []) ++
    (liveNodes x.h).flatMap fun n => n.key :: if s.iscleared n.key true then [] else [n.val]

/-- Clear collected entries from one weak table. -/
def cleartable (s : State N) (o : GCRef) : State N :=
  match o with
  | .table a =>
    let x := s.table a
    ((s.lookedAt x).foldl markstring s).setTable a { x with h := s.clearedTable x }
  | _ => s

def atomic (s : State N) : State N :=
  -- remark occasional upvalues of (maybe) dead threads
  let s := s.remarkupvals.propagateall
  -- remark weak tables
  let s := { s with gray := s.weak, weak := [] }
  let s := (s.markobject (.thread s.running)).markmt.propagateall
  -- remark gray again
  let s := { s with gray := s.grayagain, grayagain := [] }.propagateall
  let s := (s.separateudata false).marktmu.propagateall
  -- remove collected objects from weak tables
  let s := s.weak.foldl cleartable s
  -- flip current white
  { s with
    currentwhite := !s.currentwhite, sweepstrgc := 0, swept := [], unswept := s.rootgc, gcstate := .sweepstring }

/-! ## Sweep phase -/

/-- `(curr->gch.marked ^ WHITEBITS) & deadmask` fails; `deadmask` has the fixed bit. -/
def collects (s : State N) (o : GCRef) : Bool := s.isdead o && !s.fixed o

/-- `sweepwholelist` of open upvalues: what stays in the list, and the state. -/
def sweepupvals (s : State N) : List Nat → List Nat × State N
  | [] => ([], s)
  | u :: rest =>
    if s.collects (.upval u) then (s.freeupval u).sweepupvals rest
    else
      let (kept, s) := (s.makewhite (.upval u)).sweepupvals rest
      (u :: kept, s)

/-- `sweepwholelist` of a bucket of the string table. -/
def sweepstrings (s : State N) : List Nat → List Nat × State N
  | [] => ([], s)
  | a :: rest =>
    if s.collects (.string a) then (s.free (.string a)).sweepstrings rest
    else
      let (kept, s) := (s.makewhite (.string a)).sweepstrings rest
      (a :: kept, s)

/-- Sweep open upvalues of a thread. -/
def sweepopenupval (s : State N) (o : GCRef) : State N :=
  match o with
  | .thread th =>
    let (kept, s) := s.sweepupvals (s.thread th).openupval
    s.setThread th { s.thread th with openupval := kept }
  | _ => s

def freeobj (s : State N) (o : GCRef) : State N :=
  match o with
  -- `gafqE_freethread`
  | .thread th => (s.close th 0).free o
  | _ => s.free o

/-- One iteration of `sweeplist` at the position `sweepgc`. -/
def sweepone (s : State N) : State N :=
  match s.unswept with
  | [] => s
  | o :: rest =>
    let s := s.sweepopenupval o
    if s.collects o then { s with unswept := rest }.freeobj o
    -- make it white (for next cycle)
    else { s.makewhite o with swept := s.swept ++ [o], unswept := rest }

/-- `sweeplist` of `rootgc` from the position `sweepgc` on. -/
def sweeplist (s : State N) : Nat → State N
  | 0 => s
  | count + 1 => s.sweepone.sweeplist count

/-- `GCSWEEPMAX`. -/
def sweepMax : Nat := 40

/-- Check size of string hash. -/
def checkSizes (s : State N) : State N :=
  if s.nuse < s.strt.length / 4 ∧ minStrTabSize * 2 < s.strt.length then s.resizestrt (s.strt.length / 2) else s

/-- `GCTM` up to the call of the tag method, which finds its argument on the stack. -/
def gctm (s : State N) : State N :=
  match s.tmudata with
  | [] => s
  | u :: rest =>
    let s := { s with tmudata := rest }
    -- return it to `root' list
    let s := (s.linkudata u).makewhite (.udata u)
    let tm := s.gcmethod u
    if tm.isNil then s else (s.push s.running tm).push s.running (.object .userdata u)

def sweepbucket (s : State N) : State N :=
  let (kept, s) := s.sweepstrings (s.strt.getD s.sweepstrgc [])
  { s with strt := s.strt.set s.sweepstrgc kept, sweepstrgc := s.sweepstrgc + 1 }

def singlestep (s : State N) : State N :=
  match s.gcstate with
  | .pause => s.markroot
  | .propagate => if s.gray.isEmpty then s.atomic else s.propagatemark
  | .sweepstring =>
    let s := s.sweepbucket
    if s.strt.length ≤ s.sweepstrgc then { s with gcstate := .sweep } else s
  | .sweep =>
    let s := s.sweeplist sweepMax
    if s.unswept.isEmpty then { s.checkSizes with gcstate := .finalize } else s
  | .finalize => if s.tmudata.isEmpty then { s with gcstate := .pause } else s.gctm

end State

end Gafq.GC
