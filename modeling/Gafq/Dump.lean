import Gafq.Undump

/-! # Saving precompiled chunks

`gdump.c`.  The dump functions never look at what the writer returns, they only stop calling it
once it has failed; so each of them is the list of blocks it hands to `DumpBlock`, and `dump` feeds
these to the writer.
-/

namespace Gafq

open Base

abbrev Block := List UInt8

/-! ## Values -/

def dumpInt (cfg : BuildConfig) (x : Int) : Block := intImage cfg.littleEndian cfg.sizeInt.toNat x

def dumpSize (cfg : BuildConfig) (x : Nat) : Block := natImage cfg.littleEndian cfg.sizeSizeT.toNat x

def dumpInstruction (cfg : BuildConfig) (i : Instruction) : Block :=
  natImage cfg.littleEndian cfg.sizeInstruction.toNat i.toNat

/-- `DumpString`: the length counts the trailing `\0`, and zero stands for `NULL`. -/
def dumpString (cfg : BuildConfig) : Option TString → List Block
  | none => [dumpSize cfg 0]
  | some s => [dumpSize cfg (s.length + 1), s ++ [0]]

/-- `DumpVector` of elements with a given memory image: a count and one block. -/
def dumpVector {α : Type} (cfg : BuildConfig) (image : α → Block) (xs : List α) : List Block :=
  [dumpInt cfg xs.length, xs.flatMap image]

/-- A count, and then each element on its own. -/
def dumpEach {α : Type} (cfg : BuildConfig) (element : α → List Block) (xs : List α) : List Block :=
  dumpInt cfg xs.length :: xs.flatMap element

/-! ## Functions -/

def dumpConstant (cfg : BuildConfig) : Constant → List Block
  | .nil => [[0]]
  | .boolean b => [[1], [boolByte b]]
  | .number image => [[3], image]
  | .string s => [4] :: dumpString cfg s

def dumpLocVar (cfg : BuildConfig) (v : LocVar) : List Block :=
  dumpString cfg v.varname ++ [dumpInt cfg v.startpc, dumpInt cfg v.endpc]

def dumpDebug (cfg : BuildConfig) (strip : Bool) (f : Proto) : List Block :=
  dumpVector cfg (dumpInt cfg) (if strip then [] else f.lineinfo) ++
  dumpEach cfg (dumpLocVar cfg) (if strip then [] else f.locvars) ++
  dumpEach cfg (dumpString cfg) (if strip then [] else f.upvalues)

mutual

/-- `DumpFunction`; `p` is the source of the enclosing function. -/
def dumpFunction (cfg : BuildConfig) (strip : Bool) : Proto → Option TString → List Block
  | ⟨k, code, nested, lineinfo, locvars, upvalues, source, linedefined, lastlinedefined,
      nups, numparams, isVararg, maxstacksize⟩, p =>
    dumpString cfg (if source = p ∨ strip then none else source) ++
    [dumpInt cfg linedefined, dumpInt cfg lastlinedefined,
     [nups], [numparams], [isVararg], [maxstacksize]] ++
    dumpVector cfg (dumpInstruction cfg) code ++
    dumpEach cfg (dumpConstant cfg) k ++
    (dumpInt cfg nested.length :: dumpNested cfg strip nested source) ++
    dumpDebug cfg strip ⟨k, code, nested, lineinfo, locvars, upvalues, source, linedefined,
      lastlinedefined, nups, numparams, isVararg, maxstacksize⟩

/-- The loop of `DumpConstants` over the nested functions. -/
def dumpNested (cfg : BuildConfig) (strip : Bool) : List Proto → Option TString → List Block
  | [], _ => []
  | f :: fs, p => dumpFunction cfg strip f p ++ dumpNested cfg strip fs p

end

/-- The block that `DumpHeader` writes. -/
def dumpHeader (cfg : BuildConfig) : List Block := [headerBuffer cfg]

/-- The blocks that `gafqU_dump` writes, in order. -/
def dumpBlocks (cfg : BuildConfig) (f : Proto) (strip : Bool) : List Block :=
  dumpHeader cfg ++ dumpFunction cfg strip f none

/-- `DumpBlock` over a list of blocks: the writer is not called again once it has failed. -/
def writeBlocks {σ : Type} (writer : σ → Block → σ × Int) (data : σ) (status : Int) : List Block → σ × Int
  | [] => (data, status)
  | b :: bs =>
    if status = 0 then
      let r := writer data b
      writeBlocks writer r.1 r.2 bs
    else writeBlocks writer data status bs

/-- `gafqU_dump`: the writer's data and the status returned, if the store of `gafqU_header` behind its buffer
does no harm. -/
def dump {σ : Type} (cfg : BuildConfig) (f : Proto) (writer : σ → Block → σ × Int) (data : σ) (strip : Bool) :
    σ × Int :=
  writeBlocks writer data 0 (dumpBlocks cfg f strip)

/-- `gafqU_dump` with the buffer `h` of `DumpHeader`; `none` if a store lies outside. -/
def dumpFrom {σ : Type} (cfg : BuildConfig) (h : HeaderBuffer) (f : Proto) (writer : σ → Block → σ × Int) (data : σ)
    (strip : Bool) : Option (σ × Int) :=
  (fillHeader cfg h.val).map fun _ => dump cfg f writer data strip

/-- A writer that collects what it is given and never fails. -/
def collect (out : List UInt8) (b : Block) : List UInt8 × Int := (out ++ b, 0)

end Gafq
