import Gafq.Heap

/-! # Upvalues and stacks in memory

`gfunc.c` on open upvalues once more, with the pointers: an open `UpVal` points into the array that is
the stack of its thread, the array may be moved, and all open upvalues are linked to a ring.  Addresses
in stacks count `TValue`s.  Of the objects on the list `rootgc` only the upvalues are kept.
-/

namespace Gafq.Upvalues

open GC (Colour GCPhase)

variable {N : Type}

/-- `EXTRA_STACK`. -/
def extraStack : Nat := 5

/-- `GAFQ_MINSTACK`. -/
def minStack : Nat := 20

/-- `BASIC_STACK_SIZE`. -/
def basicStackSize : Nat := 2 * minStack

/-- A pointer to an `UpVal`: `&g->uvhead` or an object. -/
inductive UvRef where
  | uvhead
  | obj (a : Nat)
deriving DecidableEq, Repr

/-- `uv->v` points into a stack or to `uv->u.value`. -/
inductive Pointer where
  | stack (p : Nat)
  | value
deriving DecidableEq, Repr

/-- The union `uv->u`. -/
inductive Contents (N : Type) where
  | value (v : TValue N)
  | l (prev next : UvRef)

structure UpVal (N : Type) where
  marked : Colour
  v : Pointer
  u : Contents N

structure CallInfo where
  func : Nat
  base : Nat
  top : Nat
deriving DecidableEq, Repr

structure Thread where
  /-- address of the first slot -/
  stack : Nat
  stacksize : Nat
  top : Nat
  base : Nat
  ci : List CallInfo
  openupval : List Nat
deriving DecidableEq, Repr

/-- The address is that of a slot of the stack. -/
def Thread.HasSlot (t : Thread) (p : Nat) : Prop := t.stack ≤ p ∧ p < t.stack + t.stacksize

instance (t : Thread) (p : Nat) : Decidable (t.HasSlot p) := inferInstanceAs (Decidable (_ ∧ _))

structure State (N : Type) where
  /-- the memory that the stacks are in -/
  mem : Nat → TValue N
  uv : UvRef → UpVal N
  allocated : Nat → Bool
  thread : Nat → Option Thread
  rootgc : List Nat
  gcstate : GCPhase
  currentwhite : Bool

def Contents.prev : Contents N → UvRef
  | .l prev _ => prev
  | .value _ => .uvhead

def Contents.next : Contents N → UvRef
  | .l _ next => next
  | .value _ => .uvhead

def Contents.read : Contents N → TValue N
  | .value v => v
  | .l _ _ => .nil

namespace State

def prev (s : State N) (r : UvRef) : UvRef := (s.uv r).u.prev

def next (s : State N) (r : UvRef) : UvRef := (s.uv r).u.next

def setUv (s : State N) (r : UvRef) (x : UpVal N) : State N := { s with uv := Function.update s.uv r x }

def setPrev (s : State N) (r x : UvRef) : State N := s.setUv r { s.uv r with u := .l x (s.next r) }

def setNext (s : State N) (r x : UvRef) : State N := s.setUv r { s.uv r with u := .l (s.prev r) x }

def setMarked (s : State N) (u : Nat) (c : Colour) : State N := s.setUv (.obj u) { s.uv (.obj u) with marked := c }

def setThread (s : State N) (th : Nat) (t : Thread) : State N :=
  { s with thread := Function.update s.thread th (some t) }

def marked (s : State N) (u : Nat) : Colour := (s.uv (.obj u)).marked

def isdead (s : State N) (u : Nat) : Bool := s.marked u == .white !s.currentwhite

/-- `uv->v`. -/
def v (s : State N) (u : Nat) : Pointer := (s.uv (.obj u)).v

/-- `*uv->v`. -/
def upvalValue (s : State N) (u : Nat) : TValue N :=
  match s.v u with
  | .stack p => s.mem p
  | .value => (s.uv (.obj u)).u.read

/-- The place that an open upvalue points to. -/
def level (s : State N) (u : Nat) : Nat :=
  match s.v u with
  | .stack p => p
  | .value => 0

/-- Address for a new object. -/
def alloc (s : State N) (fresh : Nat) (x : UpVal N) : State N :=
  { s.setUv (.obj fresh) x with allocated := Function.update s.allocated fresh true }

/-! ## `gfunc.c` -/

/-- `gafqF_newupval`. -/
def newupval (s : State N) (fresh : Nat) : State N :=
  let s := s.alloc fresh { marked := .white s.currentwhite, v := .value, u := .value .nil }
  { s with rootgc := fresh :: s.rootgc }

/-- The loop of `gafqF_findupval`: the upvalue, or the parts of the list between which a new one
belongs. -/
def findLoop (s : State N) (level : Nat) : List Nat → Nat ⊕ List Nat × List Nat
  | [] => .inr ([], [])
  | p :: rest =>
    if level ≤ s.level p then
      -- found a corresponding upvalue?
      if s.level p = level then .inl p
      else
        match s.findLoop level rest with
        | .inl u => .inl u
        | .inr (higher, lower) => .inr (p :: higher, lower)
    else .inr ([], p :: rest)

/-- The new upvalue of `gafqF_findupval`, chained behind the upvalues `higher`. -/
def create (s : State N) (th : Nat) (t : Thread) (level fresh : Nat) (higher lower : List Nat) : State N :=
  -- current value lives in the stack
  let s := s.alloc fresh { marked := .white s.currentwhite, v := .stack level, u := .l .uvhead (s.next .uvhead) }
  -- chain it in the proper position
  let s := s.setThread th { t with openupval := higher ++ fresh :: lower }
  -- double link it in the `uvhead` list
  let s := s.setPrev (s.next (.obj fresh)) (.obj fresh)
  s.setNext .uvhead (.obj fresh)

/-- `gafqF_findupval`: the upvalue for a slot and the state; `fresh` is the address for a new one. -/
def findupval (s : State N) (th level fresh : Nat) : Nat × State N :=
  match s.thread th with
  | none => (fresh, s)
  | some t =>
    match s.findLoop level t.openupval with
    | .inl p =>
      -- resurrect it if it is dead
      (p, if s.isdead p then s.setMarked p (.white s.currentwhite) else s)
    | .inr (higher, lower) => (fresh, s.create th t level fresh higher lower)

def unlinkupval (s : State N) (uv : UvRef) : State N :=
  let s := s.setPrev (s.next uv) (s.prev uv)
  s.setNext (s.prev uv) (s.next uv)

/-- `gafqF_freeupval`. -/
def freeupval (s : State N) (u : Nat) : State N :=
  -- is it open?
  let s := if s.v u ≠ .value then s.unlinkupval (.obj u) else s
  { s with allocated := Function.update s.allocated u false }

/-- `gafqC_linkupval`; its barrier marks objects that are no upvalues. -/
def linkupval (s : State N) (u : Nat) : State N :=
  let s := { s with rootgc := u :: s.rootgc }
  if s.marked u = .gray then
    if s.gcstate = .propagate then s.setMarked u .black else s.setMarked u (.white s.currentwhite)
  else s

/-- The part of the loop of `gafqF_close` after the upvalue has been taken off the list. -/
def closeupval (s : State N) (u : Nat) : State N :=
  if s.isdead u then s.freeupval u
  else
    let s := s.unlinkupval (.obj u)
    -- now current value lives here
    let s := s.setUv (.obj u) { s.uv (.obj u) with u := .value (s.upvalValue u), v := .value }
    s.linkupval u

/-- The loop of `gafqF_close` over the remaining list. -/
def closeLoop (s : State N) (th level : Nat) : List Nat → State N
  | [] => s
  | u :: rest =>
    if level ≤ s.level u then
      let s :=
        match s.thread th with
        | some t => s.setThread th { t with openupval := rest }
        | none => s
      (s.closeupval u).closeLoop th level rest
    else s

/-- `gafqF_close`. -/
def close (s : State N) (th level : Nat) : State N :=
  match s.thread th with
  | some t => s.closeLoop th level t.openupval
  | none => s

/-! ## Stacks -/

/-- `setobj` of a stack slot. -/
def setSlot (s : State N) (p : Nat) (x : TValue N) : State N := { s with mem := Function.update s.mem p x }

/-- Store through `uv->v`. -/
def setUpvalValue (s : State N) (u : Nat) (x : TValue N) : State N :=
  match s.v u with
  | .stack p => s.setSlot p x
  | .value => s.setUv (.obj u) { s.uv (.obj u) with u := .value x }

/-- An address in the old stack, after the move. -/
def corrected (oldstack stack p : Nat) : Nat := (p - oldstack) + stack

/-- Correct the pointer of an open upvalue. -/
def correctupval (oldstack stack : Nat) (s : State N) (u : Nat) : State N :=
  s.setUv (.obj u) { s.uv (.obj u) with v := .stack (corrected oldstack stack (s.level u)) }

def correctstack (s : State N) (th : Nat) (t : Thread) (oldstack : Nat) : State N :=
  let move := corrected oldstack t.stack
  let s := t.openupval.foldl (correctupval oldstack t.stack) s
  s.setThread th { t with
    top := move t.top
    ci := t.ci.map fun ci => { func := move ci.func, base := move ci.base, top := move ci.top }
    base := move t.base }

/-- `gafqM_reallocvector` copies the slots to the new array; the rest of it is not set. -/
def reallocvector (s : State N) (old oldsize new newsize : Nat) : State N :=
  { s with mem := fun p => if new ≤ p ∧ p < new + min oldsize newsize then s.mem (p - new + old) else s.mem p }

/-- `gafqD_reallocstack`, where the allocator returns the array at `stack`. -/
def reallocstack (s : State N) (th newsize stack : Nat) : State N :=
  match s.thread th with
  | none => s
  | some t =>
    let realsize := newsize + 1 + extraStack
    let s := s.reallocvector t.stack t.stacksize stack realsize
    s.correctstack th { t with stack, stacksize := realsize } t.stack

/-- `stack_init` of a new thread. -/
def stackInit (s : State N) (th stack : Nat) : State N :=
  let stacksize := basicStackSize + extraStack
  -- `function` entry for this `ci`
  let s := s.setSlot stack .nil
  s.setThread th {
    stack, stacksize
    top := stack + 1
    base := stack + 1
    ci := [{ func := stack, base := stack + 1, top := stack + 1 + minStack }]
    openupval := [] }

/-- `gafqE_freethread`. -/
def freethread (s : State N) (th : Nat) : State N :=
  match s.thread th with
  | none => s
  | some t =>
    -- close all upvalues for this thread
    let s := s.close th t.stack
    { s with thread := Function.update s.thread th none }

/-! ## The sweep -/

/-- `sweeplist` of the list of open upvalues of a thread, from some position on. -/
def sweepOpen (s : State N) (th : Nat) : List Nat → State N
  | [] => s
  | curr :: rest =>
    if s.isdead curr then
      let s :=
        match s.thread th with
        | some t => s.setThread th { t with openupval := t.openupval.erase curr }
        | none => s
      (s.freeupval curr).sweepOpen th rest
    else (s.setMarked curr (.white s.currentwhite)).sweepOpen th rest

/-- `sweepwholelist(L, &gco2th(curr)->openupval)`. -/
def sweepopenupval (s : State N) (th : Nat) : State N :=
  match s.thread th with
  | some t => s.sweepOpen th t.openupval
  | none => s

/-- `sweeplist` of the list `rootgc`. -/
def sweepRoot (s : State N) : List Nat → State N
  | [] => s
  | curr :: rest =>
    if s.isdead curr then ({ s with rootgc := s.rootgc.erase curr }.freeupval curr).sweepRoot rest
    else (s.setMarked curr (.white s.currentwhite)).sweepRoot rest

/-- The next `count` objects of `rootgc` from the position `sweepgc` on. -/
def sweeproot (s : State N) (sweepgc count : Nat) : State N := s.sweepRoot ((s.rootgc.drop sweepgc).take count)

/-! ## Runs -/

/-- `gafq_newstate`, before the main thread gets its stack. -/
def newstate : State N where
  mem _ := .nil
  uv _ := { marked := .white false, v := .value, u := .l .uvhead .uvhead }
  allocated _ := false
  thread _ := none
  rootgc := []
  gcstate := .pause
  currentwhite := false

/-- The allocator returns arrays that do not overlap the stacks of the other threads. -/
def FreeArray (s : State N) (th stack size : Nat) : Prop :=
  ∀ th' t, th' ≠ th → s.thread th' = some t → t.stack + t.stacksize ≤ stack ∨ stack + size ≤ t.stack

/-- What happens to upvalues and stacks.  The rest of the collector is the step `collect`: it may give
the upvalues any colours and go to any phase. -/
inductive Step (s : State N) : State N → Prop
  | findupval {th level fresh : Nat} {t : Thread} : s.thread th = some t → t.HasSlot level →
      s.allocated fresh = false → Step s (s.findupval th level fresh).2
  | close (th level : Nat) : Step s (s.close th level)
  | setSlot {th p : Nat} {t : Thread} (x : TValue N) : s.thread th = some t → t.HasSlot p → Step s (s.setSlot p x)
  | setUpvalValue {u : Nat} (x : TValue N) : s.allocated u = true → Step s (s.setUpvalValue u x)
  | reallocstack {th newsize stack : Nat} {t : Thread} : s.thread th = some t →
      -- no slot is given up that an upvalue still uses
      (∀ u ∈ t.openupval, s.level u < t.stack + (newsize + 1 + extraStack)) →
      s.FreeArray th stack (newsize + 1 + extraStack) → Step s (s.reallocstack th newsize stack)
  | sweepopenupval (th : Nat) : Step s (s.sweepopenupval th)
  | sweeproot (sweepgc count : Nat) : Step s (s.sweeproot sweepgc count)
  | collect (marked : Nat → Colour) (gcstate : GCPhase) (currentwhite : Bool) :
      Step s { s with
        uv := fun
          | .uvhead => s.uv .uvhead
          | .obj u => { s.uv (.obj u) with marked := marked u }
        gcstate, currentwhite }
  | newupval {fresh : Nat} : s.allocated fresh = false → Step s (s.newupval fresh)
  | stackInit {th stack : Nat} : s.thread th = none → s.FreeArray th stack (basicStackSize + extraStack) →
      Step s (s.stackInit th stack)
  | freethread (th : Nat) : Step s (s.freethread th)

/-- The states that can follow `s`. -/
abbrev Run (s s' : State N) : Prop := Relation.ReflTransGen Step s s'

end State

end Gafq.Upvalues
