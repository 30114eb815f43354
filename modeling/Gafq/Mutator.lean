import Gafq.Reachability

/-! # The mutator

What the interpreter and the functions of `gapi.c` do to the heap between two steps of the
collector.  An operation takes its operands from the stack of the running thread or is given them;
`Mutates` says that they are values the program can get at.  New objects are given the address that
the allocator returns.

Memory errors of a table operation leave the table as `gtable.c` leaves it.
-/

namespace Gafq.GC

variable {N : Type}

/-- `GAFQ_MINSTACK`. -/
def minStack : Nat := 20

/-- What an instruction after `OP_CLOSURE` captures: an upvalue of the running function, or a local
variable, with the address for a new upvalue. -/
inductive Capture where
  | upvalue (u : Nat)
  | local (level fresh : Nat)
deriving DecidableEq, Repr

namespace State

/-! ## The stack of the running thread -/

/-- `L->top - n`. -/
def fromTop (s : State N) (n : Nat) : TValue N := (s.thread s.running).stack ((s.thread s.running).top - n)

/-- `L->top -= n`. -/
def pop (s : State N) (n : Nat) : State N :=
  s.setThread s.running { s.thread s.running with top := (s.thread s.running).top - n }

def settop (s : State N) (th n : Nat) : State N := s.setThread th { s.thread th with top := n }

/-- `gafqD_precall` enters a function. -/
def precall (s : State N) (th : Nat) (ci : CallInfo) : State N :=
  let x := s.thread th
  if ci.isC then s.setThread th { x with ci := ci :: x.ci }
  else
    s.setThread th { x with
      ci := ci :: x.ci
      stack := fun i => if x.top ≤ i ∧ i < ci.top then .nil else x.stack i
      top := ci.top }

/-- `L->ci--`. -/
def poscall (s : State N) (th : Nat) : State N := s.setThread th { s.thread th with ci := (s.thread th).ci.tail }

/-! ## New objects -/

/-- `gafqH_new`; `h` is the table, also when there was no memory for one of its vectors. -/
def newtable (s : State N) (h : Gafq.Table N) (a : Nat) : State N := (s.link (.table a)).setTable a { h }

def createtable (s : State N) (mem : Memory) (narray nhash a : Nat) : State N :=
  match Table.new mem narray nhash with
  | .ok _ h => (s.newtable h a).push s.running (.object .table a)
  | .error _ h => s.newtable h a

/-- `gafq_newthread`. -/
def newthread (s : State N) (a : Nat) : State N :=
  let s := s.link (.thread a)
  let s := s.setThread a { gt := (s.thread s.running).gt, top := 1, ci := [{ top := 1 + minStack, isC := true }] }
  s.push s.running (.object .thread a)

/-- A new prototype is anchored on the stack. -/
def newproto (s : State N) (a : Nat) : State N :=
  ((s.link (.proto a)).setProto a {}).push s.running (.object .proto a)

/-- `gafq_pushcclosure`. -/
def pushcclosure (s : State N) (env n a : Nat) : State N :=
  let th := s.thread s.running
  let upvalue := (List.range n).map fun i => th.stack (th.top - n + i)
  let s := (s.link (.closure a)).setClosure a (.c env upvalue)
  (s.pop n).push s.running (.object .function a)

/-- `gafqF_newLclosure`; there are no upvalues yet. -/
def newLclosure (s : State N) (env p a : Nat) : State N := (s.link (.closure a)).setClosure a (.gafq env p [])

/-- `gafqF_newupval`. -/
def newupval (s : State N) (u : Nat) : State N := (s.link (.upval u)).setUpval u (.closed .nil)

/-- The loop of `OP_CLOSURE` over the captured variables. -/
def capture (s : State N) (th : Nat) : List Capture → List Nat × State N
  | [] => ([], s)
  | .upvalue u :: rest =>
    let (us, s) := s.capture th rest
    (u :: us, s)
  | .local level fresh :: rest =>
    let (u, s) := s.findupval th level fresh
    let (us, s) := s.capture th rest
    (u :: us, s)

/-- `OP_CLOSURE` into the slot `ra`. -/
def opClosure (s : State N) (env p : Nat) (captures : List Capture) (a ra : Nat) : State N :=
  let s := s.newLclosure env p a
  let (us, s) := s.capture s.running captures
  (s.setClosure a (.gafq env p us)).setSlot s.running ra (.object .function a)

/-- The end of `f_parser`: the closure for a chunk whose prototype has just been taken off the
stack. -/
def closeChunk (s : State N) (env p : Nat) (us : List Nat) (a : Nat) : State N :=
  let s := s.newLclosure env p a
  let s := us.foldl newupval s
  (s.setClosure a (.gafq env p us)).push s.running (.object .function a)

def pushlstr (s : State N) (str : TString) (fresh : Nat) : State N :=
  let (a, s) := s.newlstr str fresh
  s.push s.running (.string a)

/-- `gafq_newuserdata`. -/
def newuserdata (s : State N) (env a : Nat) : State N := (s.newudata env a).push s.running (.object .userdata a)

/-! ## Stores into tables -/

section Tables

variable [GafqNumber N] (mp : MainPosition N)

/-- The keys that a `set` function gives to `newkey` when the search for `key` has returned `found`,
those of a rehash first. -/
def newkeys (h : Gafq.Table N) (key : TValue N) (found : Slot) : List (TValue N) :=
  if found ≠ .nilobject then []
  else if (!(h.node (mp.pos h.lsizenode key)).val.isNil || h.isDummy) && h.getfreepos.2.isNone then
    (liveNodes h).map (·.key) ++ [key]
  else [key]

/-- The barriers of `newkey`. -/
def barrierkeys (s : State N) (a : Nat) (keys : List (TValue N)) : State N := keys.foldl (·.barriert a ·) s

/-- A `set` function and the store into the slot it returns, with `false` for an error; `v` is `none`
where a tag method takes the place of the store. -/
def storeAt (s : State N) (a : Nat) (insertion : TableM N Slot) (keys : List (TValue N))
    (v : Gafq.Table N → Slot → Option (TValue N)) : Bool × State N :=
  match insertion (s.table a).h with
  | .error _ h => (false, s.setTable a { s.table a with h })
  | .ok slot h =>
    match v h slot with
    | none => (true, (s.setTable a { s.table a with h }).barrierkeys a keys)
    | some v => (true, ((s.setTable a { s.table a with h := h.write slot v }).barrierkeys a keys).barriert a v)

/-- `gafqV_settable` on a table; `newindex` says whether there is a tag method for absent keys. -/
def settable (s : State N) (mem : Memory) (a : Nat) (key v : TValue N) (newindex : Bool) : State N :=
  let h := (s.table a).h
  (s.storeAt a (Table.setSlot mp mem key) (newkeys mp h key (h.getSlot mp key)) fun h slot =>
    if (h.read slot).isNil && newindex then none else some v).2

/-- An item that `OP_SETLIST` stores. -/
def setlistItem (s : State N) (mem : Memory) (a : Nat) (n : Int) (v : TValue N) : State N :=
  let keys := newkeys mp (s.table a).h (.number (castNum n)) ((s.table a).h.getnum mp n)
  (s.storeAt a (Table.setnum mp mem n) keys fun _ _ => some v).2

def rawset (s : State N) (mem : Memory) (a : Nat) : State N :=
  let h := (s.table a).h
  let key := s.fromTop 2
  let v := s.fromTop 1
  let (ok, s) := s.storeAt a (Table.setSlot mp mem key) (newkeys mp h key (h.getSlot mp key)) fun _ _ => some v
  if ok then s.pop 2 else s

def rawseti (s : State N) (mem : Memory) (a : Nat) (n : Int) : State N :=
  let h := (s.table a).h
  let v := s.fromTop 1
  let keys := newkeys mp h (.number (castNum n)) (h.getnum mp n)
  let (ok, s) := s.storeAt a (Table.setnum mp mem n) keys fun _ _ => some v
  if ok then s.pop 1 else s

end Tables

/-! ## Other stores -/

/-- Store through `uv->v`. -/
def setUpvalValue (s : State N) (u : Nat) (v : TValue N) : State N :=
  match s.upval u with
  | .closed _ => s.setUpval u (.closed v)
  | .inStack th level => s.setSlot th level v

/-- `OP_SETUPVAL`. -/
def opSetupval (s : State N) (u : Nat) (v : TValue N) : State N := (s.setUpvalValue u v).barrier (.upval u) v

/-- `gafq_setmetatable` of a table. -/
def setmetatableTable (s : State N) (a : Nat) (mt : Option Nat) : State N :=
  let s := s.setTable a { s.table a with metatable := mt }
  match mt with
  | some mt => s.objbarriert a (.table mt)
  | none => s

/-- `gafq_setmetatable` of a userdata. -/
def setmetatableUdata (s : State N) (u : Nat) (mt : Option Nat) : State N :=
  let s := s.setUdata u { s.udata u with metatable := mt }
  match mt with
  | some mt => s.objbarrier (.udata u) (.table mt)
  | none => s

/-- `gafq_setmetatable` of a value of another type. -/
def setmetatableBasic (s : State N) (tag : BasicType) (mt : Option Nat) : State N :=
  { s with mt := Function.update s.mt tag mt }

def Closure.setEnv (env : Nat) : Closure N → Closure N
  | .c _ upvalue => .c env upvalue
  | .gafq _ p upvals => .gafq env p upvals

/-- `gafq_setfenv` of a function, and `gafq_replace` of the environment. -/
def setfenvClosure (s : State N) (a env : Nat) : State N :=
  (s.setClosure a (Closure.setEnv env (s.closure a))).objbarrier (.closure a) (.table env)

/-- `gafq_setfenv` of a userdata. -/
def setfenvUdata (s : State N) (u env : Nat) : State N :=
  (s.setUdata u { s.udata u with env }).objbarrier (.udata u) (.table env)

/-- `gafq_setfenv` of a thread. -/
def setfenvThread (s : State N) (th env : Nat) : State N :=
  (s.setThread th { s.thread th with gt := .object .table env }).objbarrier (.thread th) (.table env)

/-- The `n`-th upvalue of a C closure. -/
def Closure.setUpvalue (n : Nat) (v : TValue N) : Closure N → Closure N
  | .c env upvalue => .c env (upvalue.set n v)
  | .gafq env p upvals => .gafq env p upvals

/-- `gafq_replace` of an upvalue of the running C function. -/
def replaceUpvalue (s : State N) (a n : Nat) : State N :=
  let v := s.fromTop 1
  ((s.setClosure a (Closure.setUpvalue n v (s.closure a))).barrier (.closure a) v).pop 1

/-! ## Stores of the parser into a prototype -/

/-- The store of `registerlocalvar`. -/
def registerlocalvar (s : State N) (f varname : Nat) : State N :=
  (s.setProto f { s.proto f with locvars := (s.proto f).locvars ++ [some varname] }).objbarrier (.proto f) (.string varname)

/-- The store of `indexupvalue`. -/
def indexupvalue (s : State N) (f name : Nat) : State N :=
  (s.setProto f { s.proto f with upvalues := (s.proto f).upvalues ++ [some name] }).objbarrier (.proto f) (.string name)

/-- The store of `pushclosure`. -/
def addproto (s : State N) (f func : Nat) : State N :=
  (s.setProto f { s.proto f with p := (s.proto f).p ++ [some func] }).objbarrier (.proto f) (.proto func)

/-- The store of `addk`. -/
def addk (s : State N) (f : Nat) (v : TValue N) : State N :=
  (s.setProto f { s.proto f with k := (s.proto f).k ++ [v] }).barrier (.proto f) v

/-! ## `gafq_setupvalue` -/

/-- The value that `aux_upvalue` finds: an upvalue of a C function, or an `UpVal`. -/
inductive UpvalueSlot where
  | c (i : Nat)
  | gafq (u : Nat)
deriving DecidableEq, Repr

/-- `aux_upvalue` on a function: the place of the value and the name of the upvalue. -/
def auxUpvalue (s : State N) (f n : Nat) : Option (UpvalueSlot × TString) :=
  match s.closure f with
  | .c _ upvalue => if 1 ≤ n ∧ n ≤ upvalue.length then some (.c (n - 1), []) else none
  | .gafq _ p upvals =>
    let names := (s.proto p).upvalues
    if 1 ≤ n ∧ n ≤ names.length then
      match upvals[n - 1]?, names[n - 1]? with
      | some u, some (some name) => some (.gafq u, s.string name)
      | _, _ => none
    else none

/-- `gafq_setupvalue` of a function; `none` is the result `NULL`. -/
def setupvalue (s : State N) (f n : Nat) : Option (TString × State N) :=
  match s.auxUpvalue f n with
  | none => none
  | some (slot, name) =>
    let v := s.fromTop 1
    let s := s.pop 1
    let s :=
      match slot with
      | .c i => s.setClosure f (Closure.setUpvalue i v (s.closure f))
      | .gafq u => s.setUpvalValue u v
    some (name, s.barrier (.closure f) v)

/-! ## Steps -/

/-- The program can get at the value. -/
def Accessible (s : State N) (v : TValue N) : Prop := ∀ {r}, gcvalue v = some r → s.Reachable r

/-- The operands of the captures are what `OP_CLOSURE` gives to `gafqF_findupval`: slots in use of the
running thread and upvalues of a function that can be reached. -/
inductive Captures (th : Nat) : State N → List Capture → Prop
  | nil {s : State N} : Captures th s []
  | upvalue {s : State N} {u : Nat} {rest : List Capture} :
      s.Reachable (.upval u) → Captures th s rest → Captures th s (.upvalue u :: rest)
  | local {s : State N} {level fresh : Nat} {rest : List Capture} :
      level < (s.thread th).exposed → s.marked (.upval fresh) = none →
      Captures th (s.findupval th level fresh).2 rest → Captures th s (.local level fresh :: rest)

/-- Addresses for new upvalues. -/
inductive FreshUpvals : State N → List Nat → Prop
  | nil {s : State N} : FreshUpvals s []
  | cons {s : State N} {u : Nat} {us : List Nat} :
      s.marked (.upval u) = none → FreshUpvals (s.newupval u) us → FreshUpvals s (u :: us)

section Steps

variable [GafqNumber N]

/-- One operation of the program. -/
inductive Mutates (s : State N) : State N → Prop
  | createtable (mem : Memory) (narray nhash : Nat) {a : Nat} : s.marked (.table a) = none →
      Mutates s (s.createtable mem narray nhash a)
  | newthread {a : Nat} : s.marked (.thread a) = none → Mutates s (s.newthread a)
  | newproto {a : Nat} : s.marked (.proto a) = none → Mutates s (s.newproto a)
  | registerlocalvar {f varname : Nat} : s.Reachable (.proto f) → s.Reachable (.string varname) →
      Mutates s (s.registerlocalvar f varname)
  | indexupvalue {f name : Nat} : s.Reachable (.proto f) → s.Reachable (.string name) → Mutates s (s.indexupvalue f name)
  | addproto {f func : Nat} : s.Reachable (.proto f) → s.Reachable (.proto func) → Mutates s (s.addproto f func)
  | addk {f : Nat} {v : TValue N} : s.Reachable (.proto f) → s.Accessible v → Mutates s (s.addk f v)
  | pushcclosure {env n a : Nat} : s.Reachable (.table env) → n ≤ (s.thread s.running).top →
      s.marked (.closure a) = none → Mutates s (s.pushcclosure env n a)
  | opClosure {env p a ra : Nat} {captures : List Capture} : s.Reachable (.table env) → s.Reachable (.proto p) →
      s.marked (.closure a) = none → ra < (s.thread s.running).exposed →
      Captures s.running (s.newLclosure env p a) captures → Mutates s (s.opClosure env p captures a ra)
  | closeChunk {env p a : Nat} {us : List Nat} : (s.thread s.running).gt = .object .table env →
      s.fromTop 1 = .object .proto p → 0 < (s.thread s.running).top → s.marked (.closure a) = none →
      FreshUpvals ((s.pop 1).newLclosure env p a) us → Mutates s ((s.pop 1).closeChunk env p us a)
  | pushlstr (str : TString) {fresh : Nat} : s.marked (.string fresh) = none → Mutates s (s.pushlstr str fresh)
  | newuserdata {env a : Nat} : s.Reachable (.table env) → s.marked (.udata a) = none → Mutates s (s.newuserdata env a)
  | push {th : Nat} {v : TValue N} : s.Reachable (.thread th) → s.Accessible v → Mutates s (s.push th v)
  | settop {th n : Nat} : s.Reachable (.thread th) → n ≤ (s.thread th).exposed → Mutates s (s.settop th n)
  | setSlot {th i : Nat} {v : TValue N} : s.Reachable (.thread th) → i < (s.thread th).exposed → s.Accessible v →
      Mutates s (s.setSlot th i v)
  | precall {th : Nat} (ci : CallInfo) : s.Reachable (.thread th) → Mutates s (s.precall th ci)
  | poscall {th : Nat} : s.Reachable (.thread th) → Mutates s (s.poscall th)
  | resume {th : Nat} : s.Reachable (.thread th) → Mutates s { s with running := th }
  | settable (mp : MainPosition N) (mem : Memory) {a : Nat} {key v : TValue N} (newindex : Bool) :
      s.Reachable (.table a) → s.Accessible key → s.Accessible v → Mutates s (s.settable mp mem a key v newindex)
  | setlistItem (mp : MainPosition N) (mem : Memory) {a : Nat} (n : Int) {v : TValue N} :
      s.Reachable (.table a) → s.Accessible v → Mutates s (s.setlistItem mp mem a n v)
  | rawset (mp : MainPosition N) (mem : Memory) {a : Nat} : s.Reachable (.table a) → 2 ≤ (s.thread s.running).top →
      Mutates s (s.rawset mp mem a)
  | rawseti (mp : MainPosition N) (mem : Memory) {a : Nat} (n : Int) : s.Reachable (.table a) →
      1 ≤ (s.thread s.running).top → Mutates s (s.rawseti mp mem a n)
  | opSetupval {u : Nat} {v : TValue N} : s.Reachable (.upval u) → s.Accessible v → Mutates s (s.opSetupval u v)
  | findupval {th level fresh : Nat} : s.Reachable (.thread th) → level < (s.thread th).exposed →
      s.marked (.upval fresh) = none → Mutates s (s.findupval th level fresh).2
  | close {th : Nat} (level : Nat) : s.Reachable (.thread th) → Mutates s (s.close th level)
  | setmetatableTable {a : Nat} {mt : Option Nat} : s.Reachable (.table a) → (∀ m ∈ mt, s.Reachable (.table m)) →
      Mutates s (s.setmetatableTable a mt)
  | setmetatableUdata {u : Nat} {mt : Option Nat} : s.Reachable (.udata u) → (∀ m ∈ mt, s.Reachable (.table m)) →
      Mutates s (s.setmetatableUdata u mt)
  | setmetatableBasic (tag : BasicType) {mt : Option Nat} : (∀ m ∈ mt, s.Reachable (.table m)) →
      Mutates s (s.setmetatableBasic tag mt)
  | setfenvClosure {a env : Nat} : s.Reachable (.closure a) → s.Reachable (.table env) →
      Mutates s (s.setfenvClosure a env)
  | setfenvUdata {u env : Nat} : s.Reachable (.udata u) → s.Reachable (.table env) → Mutates s (s.setfenvUdata u env)
  | setfenvThread {th env : Nat} : s.Reachable (.thread th) → s.Reachable (.table env) →
      Mutates s (s.setfenvThread th env)
  | replaceUpvalue {a : Nat} (n : Nat) : s.Reachable (.closure a) → 1 ≤ (s.thread s.running).top →
      Mutates s (s.replaceUpvalue a n)

end Steps

end State

end Gafq.GC
