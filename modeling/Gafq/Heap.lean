import Gafq.Object
import Gafq.Table

/-! # The heap

The collectable objects of `gobject.h` and the part of `global_State` that the collector works on.
An object is known by its type and its address; `marked` says which addresses are allocated and
what their colours are.  The lists that the source threads through the objects (`next`,
`gclist`, `u.l`) are lists of pointers here.

The mark bits other than the colours stand apart: bits 3 and 4 are the fields `finalized` of userdata
and `weakkey` and `weakvalue` of tables, and bit 5 is `fixed`.
-/

namespace Gafq.GC

/-! ## Objects -/

/-- A pointer to a collectable object. -/
inductive GCRef where
  | string (a : Nat)
  | udata (a : Nat)
  | proto (a : Nat)
  | closure (a : Nat)
  | table (a : Nat)
  | upval (a : Nat)
  | thread (a : Nat)
deriving DecidableEq, Repr

inductive Colour where
  | white (bit : Bool)
  | gray
  | black
deriving DecidableEq, Repr

structure Udata where
  metatable : Option Nat := none
  env : Nat
  finalized : Bool := false
deriving DecidableEq, Repr

/-- The pointers in a `Proto`; `none` is `NULL`. -/
structure ProtoObject (N : Type) where
  source : Option Nat := none
  k : List (TValue N) := []
  upvalues : List (Option Nat) := []
  p : List (Option Nat) := []
  /-- `locvars[i].varname` -/
  locvars : List (Option Nat) := []

inductive Closure (N : Type) where
  | c (env : Nat) (upvalue : List (TValue N))
  | gafq (env p : Nat) (upvals : List Nat)

structure TableObject (N : Type) where
  h : Gafq.Table N
  metatable : Option Nat := none
  weakkey : Bool := false
  weakvalue : Bool := false

/-- An open upvalue points into the stack of a thread. -/
inductive UpVal (N : Type) where
  | closed (value : TValue N)
  | inStack (th level : Nat)

structure CallInfo where
  top : Nat
  isC : Bool
deriving DecidableEq, Repr

structure ThreadObject (N : Type) where
  /-- table of globals -/
  gt : TValue N
  stack : Nat → TValue N := fun _ => .nil
  /-- first free slot in the stack -/
  top : Nat := 0
  ci : List CallInfo := []
  /-- list of open upvalues in this stack -/
  openupval : List Nat := []

/-- The types that share one metatable for all their values. -/
inductive BasicType where
  | nil | boolean | lightuserdata | number | string | table | function | userdata | thread
deriving DecidableEq, Repr

def BasicType.all : List BasicType :=
  [.nil, .boolean, .lightuserdata, .number, .string, .table, .function, .userdata, .thread]

inductive GCPhase where
  | pause | propagate | sweepstring | sweep | finalize
deriving DecidableEq, Repr

/-! ## The state -/

/-- What marking leaves alone. -/
structure Background (N : Type) where
  string : Nat → TString
  udata : Nat → Udata
  proto : Nat → ProtoObject N
  closure : Nat → Closure N
  upval : Nat → UpVal N
  /-- `FIXEDBIT` -/
  fixed : GCRef → Bool
  gcstate : GCPhase
  /-- the white bit of `currentwhite` -/
  currentwhite : Bool
  /-- `rootgc` up to the position `sweepgc` -/
  swept : List GCRef
  /-- `rootgc` from the position `sweepgc` on -/
  unswept : List GCRef
  /-- hash table for strings -/
  strt : List (List Nat)
  sweepstrgc : Nat
  /-- userdata to be finalized; the source keeps a pointer to the last one of a ring -/
  tmudata : List Nat
  /-- all open upvalues -/
  uvhead : List Nat
  mainthread : Nat
  registry : Nat
  /-- metatables for basic types -/
  mt : BasicType → Option Nat
  /-- `tmname[TM_MODE]` and `tmname[TM_GC]` -/
  tmMode : Nat
  tmGc : Nat
  /-- the running thread -/
  running : Nat

structure State (N : Type) extends Background N where
  table : Nat → TableObject N
  thread : Nat → ThreadObject N
  /-- `none` where nothing is allocated -/
  marked : GCRef → Option Colour
  /-- list of gray objects -/
  gray : List GCRef
  /-- list of objects to be traversed atomically -/
  grayagain : List GCRef
  /-- list of weak tables (to be cleared) -/
  weak : List GCRef

variable {N : Type}

/-- `gcvalue` of a collectable value. -/
def gcvalue : TValue N → Option GCRef
  | .string a => some (.string a)
  | .object .table a => some (.table a)
  | .object .function a => some (.closure a)
  | .object .userdata a => some (.udata a)
  | .object .thread a => some (.thread a)
  | .object .proto a => some (.proto a)
  | .nil | .boolean _ | .lightuserdata _ | .number _ | .deadkey _ => none

namespace State

def rootgc (s : State N) : List GCRef := s.swept ++ s.unswept

/-- All collectable objects. -/
def objects (s : State N) : List GCRef :=
  s.rootgc ++ (s.strt.flatten.map .string ++ (s.tmudata.map .udata ++ s.uvhead.map .upval))

/-- `*uv->v`. -/
def upvalValue (s : State N) (a : Nat) : TValue N :=
  match s.upval a with
  | .closed v => v
  | .inStack th level => (s.thread th).stack level

/-! ## Colours -/

def colour (s : State N) (r : GCRef) : Option Colour := s.marked r

def iswhite (s : State N) (r : GCRef) : Bool :=
  match s.colour r with
  | some (.white _) => true
  | _ => false

def isblack (s : State N) (r : GCRef) : Bool := s.colour r == some .black

def isgray (s : State N) (r : GCRef) : Bool := s.colour r == some .gray

def isdead (s : State N) (r : GCRef) : Bool := s.colour r == some (.white !s.currentwhite)

/-- `valiswhite`. -/
def valiswhite (s : State N) (v : TValue N) : Bool := (gcvalue v).any s.iswhite

/-- Change the colour bits of an object. -/
def paint (s : State N) (r : GCRef) (f : Colour → Colour) : State N :=
  { s with marked := Function.update s.marked r ((s.marked r).map f) }

def makewhite (s : State N) (r : GCRef) : State N := s.paint r fun _ => .white s.currentwhite

/-- `white2gray` and `stringmark`. -/
def white2gray (s : State N) (r : GCRef) : State N :=
  s.paint r fun
    | .white _ => .gray
    | c => c

/-- `gray2black`; the object is not white. -/
def gray2black (s : State N) (r : GCRef) : State N := s.paint r fun _ => .black

def black2gray (s : State N) (r : GCRef) : State N :=
  s.paint r fun
    | .black => .gray
    | c => c

def changewhite (s : State N) (r : GCRef) : State N :=
  s.paint r fun
    | .white bit => .white !bit
    | c => c

/-- `gafqS_fix`. -/
def fix (s : State N) (a : Nat) : State N := { s with fixed := Function.update s.fixed (.string a) true }

/-- The memory of an object goes back to the allocator. -/
def free (s : State N) (r : GCRef) : State N := { s with marked := Function.update s.marked r none }

/-! ## Updates -/

def setTable (s : State N) (a : Nat) (x : TableObject N) : State N := { s with table := Function.update s.table a x }

def setThread (s : State N) (a : Nat) (x : ThreadObject N) : State N := { s with thread := Function.update s.thread a x }

def setUdata (s : State N) (a : Nat) (x : Udata) : State N := { s with udata := Function.update s.udata a x }

def setUpval (s : State N) (a : Nat) (x : UpVal N) : State N := { s with upval := Function.update s.upval a x }

def setClosure (s : State N) (a : Nat) (x : Closure N) : State N := { s with closure := Function.update s.closure a x }

def setProto (s : State N) (a : Nat) (x : ProtoObject N) : State N := { s with proto := Function.update s.proto a x }

/-- `setobj2s` of a stack slot. -/
def setSlot (s : State N) (th i : Nat) (v : TValue N) : State N :=
  s.setThread th { s.thread th with stack := Function.update (s.thread th).stack i v }

/-- Store a value at the top of a stack and increment `top`. -/
def push (s : State N) (th : Nat) (v : TValue N) : State N :=
  s.setThread th { s.thread th with
    stack := Function.update (s.thread th).stack (s.thread th).top v, top := (s.thread th).top + 1 }

end State

end Gafq.GC
