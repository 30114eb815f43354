import Gafq.State
import Gafq.Undump
import Gafq.Base.Ensures

/-! # The loader and the heap

`gundump.c` again, with the objects that it creates.  A `Proto` that is being loaded is anchored on
the stack and is filled field by field; between two fields the loader may ask the reader for more
bytes, and the reader may run any part of the program.  The fields of a `Proto` that hold no
references are read into a `Gafq.Proto`, which `gafqG_checkcode` looks at.

A vector of a `Proto` is `NULL` or nil from the entry on that has not been loaded; these entries are
left out here.
-/

namespace Gafq.GC

open Base

variable {N : Type}

/-- A store into a prototype: `child` is what is stored, and `inherited` says that it is the source
that the function got as an argument. -/
structure ProtoStore (N : Type) where
  f : Nat
  inherited : Bool
  child : Option GCRef
  before : State N
  after : State N

structure LoadState (N : Type) where
  heap : State N
  /-- bytes still unread of the current block -/
  buff : List UInt8 := []
  /-- how often the reader and the allocator have been called -/
  calls : Nat := 0
  /-- the stores that have been made -/
  stores : List (ProtoStore N) := []

/-- What the loader is given.  The reader returns a block, empty at the end of the stream, and what it
has made of the heap; the allocator returns an address. -/
structure LoadEnv (N : Type) where
  cfg : BuildConfig
  reader : Nat → State N → List UInt8 × State N
  malloc : Nat → State N → Nat
  /-- the number with an image -/
  number : List UInt8 → N

abbrev LoaderM (N : Type) := EStateM LoadError (LoadState N)

namespace Loader

/-- A store into the prototype `f`. -/
def store (f : Nat) (inherited : Bool) (child : Option GCRef) (update : ProtoObject N → ProtoObject N) :
    LoaderM N Unit :=
  modify fun st =>
    let after := st.heap.setProto f (update (st.heap.proto f))
    { st with heap := after, stores := st.stores ++ [⟨f, inherited, child, st.heap, after⟩] }

section Env

variable (env : LoadEnv N)

/-! ## Input -/

/-- `gafqZ_fill`. -/
def fill : LoaderM N Unit :=
  modify fun st =>
    let (block, heap) := env.reader st.calls st.heap
    { st with heap, buff := block, calls := st.calls + 1 }

/-- `gafqZ_lookahead`. -/
def lookahead : LoaderM N (List UInt8) := do
  if (← get).buff.isEmpty then fill env
  return (← get).buff

/-- The loop of `gafqZ_read`: the bytes, and how many are missing. -/
def readLoop : Nat → Nat → LoaderM N (List UInt8 × Nat)
  | 0, n => pure ([], n)
  | fuel + 1, n =>
    if n = 0 then pure ([], 0)
    else do
      let buff ← lookahead env
      if buff.isEmpty then pure ([], n)
      else do
        let m := min n buff.length
        modify fun st => { st with buff := buff.drop m }
        let (rest, missing) ← readLoop fuel (n - m)
        pure (buff.take m ++ rest, missing)

/-- `LoadBlock`. -/
def loadBlock (size : Nat) : LoaderM N (List UInt8) := do
  let (bs, missing) ← readLoop env size size
  if missing ≠ 0 then throw .unexpectedEnd else pure bs

def loadByte : LoaderM N UInt8 := do
  let bs ← loadBlock env 1
  pure (bs.headD 0)

def loadInt : LoaderM N Int := do
  let bs ← loadBlock env env.cfg.sizeInt.toNat
  let x := ofIntImage env.cfg.littleEndian bs
  if x < 0 then throw .badInteger else pure x

def loadRawInt : LoaderM N Int := do
  let bs ← loadBlock env env.cfg.sizeInt.toNat
  pure (ofIntImage env.cfg.littleEndian bs)

def loadInstruction : LoaderM N Instruction := do
  let bs ← loadBlock env env.cfg.sizeInstruction.toNat
  pure (UInt32.ofNat (ofNatImage env.cfg.littleEndian bs))

def newlstr (str : TString) : LoaderM N Nat := do
  let st ← get
  let (a, heap) := st.heap.newlstr str (env.malloc st.calls st.heap)
  set { st with heap, calls := st.calls + 1 }
  return a

/-- `LoadString`. -/
def loadString : LoaderM N (Option (Nat × TString)) := do
  let bs ← loadBlock env env.cfg.sizeSizeT.toNat
  let size := ofNatImage env.cfg.littleEndian bs
  if size = 0 then pure none
  else do
    let s ← loadBlock env size
    -- remove trailing '\0'
    let str := s.take (size - 1)
    let a ← newlstr env str
    pure (some (a, str))

def loadVector {α : Type} (element : LoaderM N α) : LoaderM N (List α) := do
  let n ← loadInt env
  repeatM element n.toNat

/-! ## Prototypes -/

/-- `gafqF_newproto`, and the prototype is anchored. -/
def newproto : LoaderM N Nat := do
  let st ← get
  let a := env.malloc st.calls st.heap
  set { st with heap := st.heap.newproto a, calls := st.calls + 1 }
  return a

/-- A string, or `NULL`, that has been loaded for a field. -/
def storeString (f : Nat) (name : Option (Nat × TString)) (update : Option Nat → ProtoObject N → ProtoObject N) :
    LoaderM N (Option TString) := do
  store f false ((name.map Prod.fst).map .string) (update (name.map Prod.fst))
  pure (name.map Prod.snd)

def addConstant (f : Nat) (v : TValue N) : LoaderM N Unit :=
  store f false (gcvalue v) fun x => { x with k := x.k ++ [v] }

/-- An iteration of the first loop of `LoadConstants`. -/
def loadConstant (f : Nat) : LoaderM N Constant := do
  let t ← loadByte env
  if t = 0 then do
    addConstant f .nil
    pure .nil
  else if t = 1 then do
    let b ← loadByte env
    addConstant f (.boolean (b != 0))
    pure (.boolean (b != 0))
  else if t = 3 then do
    let image ← loadBlock env env.cfg.sizeNumber.toNat
    addConstant f (.number (env.number image))
    pure (.number image)
  else if t = 4 then do
    let name ← loadString env
    -- `NULL` in a string value is not a reference
    let str ← storeString f name fun a x => { x with k := x.k ++ [(a.map TValue.string).getD .nil] }
    pure (.string str)
  else throw .badConstant

/-- An iteration of the second loop of `LoadConstants`. -/
def loadNested (f : Nat) (loadFunction : LoaderM N (Nat × Proto)) : LoaderM N Proto := do
  let (child, proto) ← loadFunction
  store f false (some (.proto child)) fun x => { x with p := x.p ++ [some child] }
  pure proto

def loadLocVar (f : Nat) : LoaderM N LocVar := do
  let name ← loadString env
  let varname ← storeString f name fun a x => { x with locvars := x.locvars ++ [a] }
  let startpc ← loadInt env
  let endpc ← loadInt env
  pure ⟨varname, startpc, endpc⟩

def loadUpvalueName (f : Nat) : LoaderM N (Option TString) := do
  let name ← loadString env
  storeString f name fun a x => { x with upvalues := x.upvalues ++ [a] }

/-- The source of a function; `p` is inherited when the chunk has none. -/
def loadSource (f : Nat) (p : Option (Nat × TString)) : LoaderM N (Option (Nat × TString)) := do
  let name ← loadString env
  let source := if name = none then p else name
  store f name.isNone ((source.map Prod.fst).map .string) fun x => { x with source := source.map Prod.fst }
  pure source

/-- `LoadFunction`: the address of the prototype and the rest of its fields. -/
def loadFunction : Nat → Option (Nat × TString) → LoaderM N (Nat × Proto)
  | 0, _ => throw .codeTooDeep
  | levels + 1, p => do
    let f ← newproto env
    let source ← loadSource env f p
    let linedefined ← loadInt env
    let lastlinedefined ← loadInt env
    let nups ← loadByte env
    let numparams ← loadByte env
    let isVararg ← loadByte env
    let maxstacksize ← loadByte env
    let code ← loadVector env (loadInstruction env)
    let k ← loadVector env (loadConstant env f)
    let nested ← loadVector env (loadNested f (loadFunction levels source))
    let lineinfo ← loadVector env (loadRawInt env)
    let locvars ← loadVector env (loadLocVar env f)
    let upvalues ← loadVector env (loadUpvalueName env f)
    let proto : Proto := ⟨k, code, nested, lineinfo, locvars, upvalues, source.map Prod.snd, linedefined,
      lastlinedefined, nups, numparams, isVararg, maxstacksize⟩
    if checkcode proto then do
      modify fun st => { st with heap := st.heap.pop 1 }
      pure (f, proto)
    else throw .badCode

def loadHeader : LoaderM N Unit := do
  let s ← loadBlock env headerSize
  if headerBuffer env.cfg = s then pure () else throw .badHeader

/-- `gafqU_undump`, called with `L->nCcalls = nCcalls`. -/
def undump (nCcalls : Nat) : LoaderM N (Nat × Proto) := do
  loadHeader env
  let a ← newlstr env unknownSource
  loadFunction env (maxCCalls - nCcalls) (some (a, unknownSource))

end Env

end Loader

end Gafq.GC
