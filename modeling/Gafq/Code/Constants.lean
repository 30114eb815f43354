import Gafq.Opcodes
import Gafq.Table

/-! # The constants of a function

The part of `gcode.c` that collects the constants of the function being compiled.  A table finds the index
of a constant that is already there.  Its keys are the constants themselves; for `nil`, which cannot be a key,
it is the table.  The lexer keeps strings alive in the same table.

A string is its address; allocations succeed.
-/

namespace Gafq.Code

/-- The part of `FuncState` and of its prototype that holds constants. -/
structure Constants (N : Type) where
  /-- the address of the table `h` -/
  address : Nat
  h : Table N
  k : Nat → TValue N
  sizek : Nat
  nk : Nat

inductive CodeError where
  | table (e : TableError)
  /-- `constant table overflow` -/
  | tableOverflow
deriving DecidableEq, Repr

abbrev ConstantsM (N : Type) := EStateM CodeError (Constants N)

/-- `MINSIZEARRAY` -/
def minSizeArray : Nat := 4

/-- `gafqM_growaux_`: the new size of a vector, if it can be larger. -/
def growaux (size limit : Nat) : Option Nat :=
  -- cannot double it?
  if limit / 2 ≤ size then
    -- cannot grow even a little?
    if limit ≤ size then none else some limit
  else some (max (size * 2) minSizeArray)

/-- `gafqM_growvector` -/
def growvector (nelems size limit : Nat) : Option Nat := if size < nelems + 1 then growaux size limit else some size

variable {N : Type} [GafqNumber N] (mp : MainPosition N)

/-- `gafqH_new` gives the table of a new function. -/
def newConstants (address : Nat) : Constants N := ⟨address, .empty, fun _ => .nil, 0, 0⟩

def addk (key v : TValue N) : ConstantsM N Int := fun fs =>
  match fs.h.setSlot mp {} key with
  | .error e h => .error (.table e) { fs with h }
  | .ok idx h =>
    match h.read idx with
    | .number n => .ok (number2int n) { fs with h }
    | _ =>
      -- constant not found; create a new entry
      let h := h.write idx (.number (castNum fs.nk))
      match growvector fs.nk fs.sizek maxArgBx with
      | none => .error .tableOverflow { fs with h }
      | some sizek =>
        let k := fun i => if fs.sizek ≤ i ∧ i < sizek then .nil else fs.k i
        .ok fs.nk { fs with h, sizek, k := Function.update k fs.nk v, nk := fs.nk + 1 }

/-- `gafqK_stringK` -/
def stringK (s : Nat) : ConstantsM N Int := addk mp (.string s) (.string s)

/-- `gafqK_numberK` -/
def numberK (r : N) : ConstantsM N Int := addk mp (.number r) (.number r)

def boolK (b : Bool) : ConstantsM N Int := addk mp (.boolean b) (.boolean b)

def nilK : ConstantsM N Int := fun fs =>
  -- cannot use nil as key; instead use table itself to represent nil
  addk mp (.object .table fs.address) .nil fs

/-- `gafqX_newstring`, for a string that has been made. -/
def newstring (s : Nat) : ConstantsM N Unit := fun fs =>
  match fs.h.setstr mp {} s with
  | .error e h => .error (.table e) { fs with h }
  | .ok o h => .ok () { fs with h := if (h.read o).isNil then h.write o (.boolean true) else h }

/-! ## Folding -/

/-- The arithmetic of `gafqconf.h`. -/
structure Arithmetic (N : Type) where
  numadd : N → N → N
  numsub : N → N → N
  nummul : N → N → N
  numdiv : N → N → N
  nummod : N → N → N
  numpow : N → N → N
  numunm : N → N

/-- `constfolding`, when both operands are numerals. -/
def constfolding (arithmetic : Arithmetic N) (op : OpCode) (v1 v2 : N) : Option N :=
  let r := match op with
    | .add => some (arithmetic.numadd v1 v2)
    | .sub => some (arithmetic.numsub v1 v2)
    | .mul => some (arithmetic.nummul v1 v2)
    -- do not attempt to divide by 0
    | .div => if numeq v2 (castNum 0) then none else some (arithmetic.numdiv v1 v2)
    | .mod => if numeq v2 (castNum 0) then none else some (arithmetic.nummod v1 v2)
    | .pow => some (arithmetic.numpow v1 v2)
    | .unm => some (arithmetic.numunm v1)
    -- no constant folding for `len`
    | .len => none
    | _ => some (castNum 0)
  -- do not attempt to produce NaN
  r.filter fun r => numeq r r

/-! ## Sequences of calls -/

inductive ConstantCall (N : Type) where
  | stringK (s : Nat)
  | numberK (r : N)
  | boolK (b : Bool)
  | nilK
  | newstring (s : Nat)

namespace ConstantCall

/-- The constant that is asked for. -/
def value {N : Type} : ConstantCall N → Option (TValue N)
  | stringK s => some (.string s)
  | numberK r => some (.number r)
  | boolK b => some (.boolean b)
  | nilK => some .nil
  | newstring _ => none

/-- The index that a call returns, next to the constant it is for. -/
def run : ConstantCall N → ConstantsM N (List (TValue N × Int))
  | stringK s => (fun i => [(.string s, i)]) <$> Code.stringK mp s
  | numberK r => (fun i => [(.number r, i)]) <$> Code.numberK mp r
  | boolK b => (fun i => [(.boolean b, i)]) <$> Code.boolK mp b
  | nilK => (fun i => [(.nil, i)]) <$> Code.nilK mp
  | newstring s => (fun _ => []) <$> Code.newstring mp s

end ConstantCall

/-- What a sequence of calls returns. -/
def runCalls : List (ConstantCall N) → ConstantsM N (List (TValue N × Int))
  | [] => pure []
  | call :: calls => do
    let returned ← call.run mp
    let more ← runCalls calls
    return returned ++ more

end Gafq.Code
