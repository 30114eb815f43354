import Gafq.Zio
import Gafq.Debug
import Gafq.Base.Bytes

/-! # Loading precompiled chunks

`gundump.c`, and the header both sides of the format share.  A `BuildConfig` is what the
preprocessor and the compiler fix about a program: the byte order and the sizes that
`gafqU_header` writes down and that `DumpVar` and `LoadVar` use.

`LoadFunction` calls itself once for every nested function, after `++L->nCcalls` has been compared
with `GAFQI_MAXCCALLS`; `levels` counts the calls that are still allowed.
-/

namespace Gafq

open Base

/-- What a build fixes about the binary format. -/
structure BuildConfig where
  /-- `GAFQC_VERSION` -/
  version : UInt8
  /-- `GAFQC_FORMAT` -/
  format : UInt8
  littleEndian : Bool
  sizeInt : UInt8
  sizeSizeT : UInt8
  sizeInstruction : UInt8
  sizeNumber : UInt8
  /-- `((gafq_Number)0.5)==0` -/
  integral : Bool
deriving DecidableEq, Repr

/-! ## Header -/

/-- `GAFQ_SIGNATURE`, the characters `\033Gafq` (without the `\0` of the literal). -/
def signature : List UInt8 := [27, 71, 97, 102, 113]

/-- `GAFQC_HEADERSIZE`: the size of the buffers that `DumpHeader` and `LoadHeader` pass on. -/
def headerSize : Nat := 12

def boolByte (b : Bool) : UInt8 := if b then 1 else 0

/-- `gafqU_header`: the bytes it stores from `h` on, in order. -/
def header (cfg : BuildConfig) : List UInt8 :=
  signature ++
  [cfg.version, cfg.format, boolByte cfg.littleEndian, cfg.sizeInt, cfg.sizeSizeT,
   cfg.sizeInstruction, cfg.sizeNumber, boolByte cfg.integral]

/-- Stores of bytes one behind the other from `buffer[i]` on; `none` if one of them lies behind the end. -/
def storeBytes (buffer : List UInt8) : Nat → List UInt8 → Option (List UInt8)
  | _, [] => some buffer
  | i, b :: bs => if i < buffer.length then storeBytes (buffer.set i b) (i + 1) bs else none

/-- `gafqU_header` on the memory that begins at `h`. -/
def fillHeader (cfg : BuildConfig) (h : List UInt8) : Option (List UInt8) := storeBytes h 0 (header cfg)

/-- `char h[GAFQC_HEADERSIZE]`, not initialised. -/
abbrev HeaderBuffer := { h : List UInt8 // h.length = headerSize }

/-- The `GAFQC_HEADERSIZE` bytes from `h` on after `gafqU_header`, wherever its last store goes. -/
def headerBuffer (cfg : BuildConfig) : List UInt8 := (header cfg).take headerSize

/-! ## Errors -/

inductive LoadError where
  | unexpectedEnd | badInteger | badConstant | codeTooDeep | badCode | badHeader
deriving DecidableEq, Repr

def LoadError.why : LoadError → String
  | .unexpectedEnd => "unexpected end"
  | .badInteger => "bad integer"
  | .badConstant => "bad constant"
  | .codeTooDeep => "code too deep"
  | .badCode => "bad code"
  | .badHeader => "bad header"

/-- `error`: the message pushed before `GAFQ_ERRSYNTAX` is thrown. -/
def LoadError.message (name : String) (e : LoadError) : String :=
  name ++ ": " ++ e.why ++ " in precompiled chunk"

/-- The chunk name that the messages use. -/
def loadName (name : String) : String :=
  match name.toList with
  | '@' :: rest | '=' :: rest => String.ofList rest
  | '\x1b' :: _ => "binary string"
  | _ => name

/-! ## Loading values -/

abbrev LoadM := Decoder Zio LoadError

/-- `LoadBlock`. -/
def loadBlock (size : Nat) : LoadM (List UInt8) := fun z =>
  let r := z.read size
  if r.missing ≠ 0 then .error .unexpectedEnd else .ok (r.bytes, r.stream)

def loadByte : LoadM UInt8 := do
  let bs ← loadBlock 1
  pure (bs.headD 0)

def loadInt (cfg : BuildConfig) : LoadM Int := do
  let bs ← loadBlock cfg.sizeInt.toNat
  let x := ofIntImage cfg.littleEndian bs
  if x < 0 then throw .badInteger else pure x

/-- A vector element of type `int`: `LoadVector` does not look at the sign. -/
def loadRawInt (cfg : BuildConfig) : LoadM Int := do
  let bs ← loadBlock cfg.sizeInt.toNat
  pure (ofIntImage cfg.littleEndian bs)

def loadInstruction (cfg : BuildConfig) : LoadM Instruction := do
  let bs ← loadBlock cfg.sizeInstruction.toNat
  pure (UInt32.ofNat (ofNatImage cfg.littleEndian bs))

def loadNumber (cfg : BuildConfig) : LoadM (List UInt8) := loadBlock cfg.sizeNumber.toNat

def loadString (cfg : BuildConfig) : LoadM (Option TString) := do
  let bs ← loadBlock cfg.sizeSizeT.toNat
  let size := ofNatImage cfg.littleEndian bs
  if size = 0 then pure none
  else do
    let s ← loadBlock size
    -- remove trailing '\0'
    pure (some (s.take (size - 1)))

/-- A count read with `LoadInt`, and that many elements. -/
def loadVector {α : Type} (cfg : BuildConfig) (element : LoadM α) : LoadM (List α) := do
  let n ← loadInt cfg
  repeatDecoder element n.toNat

/-! ## Loading functions -/

def loadConstant (cfg : BuildConfig) : LoadM Constant := do
  let t ← loadByte
  if t = 0 then pure .nil
  else if t = 1 then do
    let b ← loadByte
    pure (.boolean (b != 0))
  else if t = 3 then do
    let image ← loadNumber cfg
    pure (.number image)
  else if t = 4 then do
    let s ← loadString cfg
    pure (.string s)
  else throw .badConstant

def loadLocVar (cfg : BuildConfig) : LoadM LocVar := do
  let varname ← loadString cfg
  let startpc ← loadInt cfg
  let endpc ← loadInt cfg
  pure ⟨varname, startpc, endpc⟩

/-- `LoadFunction`; `p` is the source inherited when the chunk has none. -/
def loadFunction (cfg : BuildConfig) : Nat → Option TString → LoadM Proto
  | 0, _ => throw .codeTooDeep
  | levels + 1, p => do
    let name ← loadString cfg
    let source := if name = none then p else name
    let linedefined ← loadInt cfg
    let lastlinedefined ← loadInt cfg
    let nups ← loadByte
    let numparams ← loadByte
    let isVararg ← loadByte
    let maxstacksize ← loadByte
    let code ← loadVector cfg (loadInstruction cfg)
    let k ← loadVector cfg (loadConstant cfg)
    let nested ← loadVector cfg (loadFunction cfg levels source)
    let lineinfo ← loadVector cfg (loadRawInt cfg)
    let locvars ← loadVector cfg (loadLocVar cfg)
    let upvalues ← loadVector cfg (loadString cfg)
    let f : Proto := ⟨k, code, nested, lineinfo, locvars, upvalues, source, linedefined,
      lastlinedefined, nups, numparams, isVararg, maxstacksize⟩
    if checkcode f then pure f else throw .badCode

/-- `LoadHeader`, behind the call of `gafqU_header`. -/
def loadHeader (cfg : BuildConfig) : LoadM Unit := do
  let s ← loadBlock headerSize
  if headerBuffer cfg = s then pure () else throw .badHeader

/-- The source `"=?"` of a chunk that carries none. -/
def unknownSource : TString := [61, 63]

/-- `gafqU_undump`, called with `L->nCcalls = nCcalls`, if the store behind the buffer does no harm. -/
def undump (cfg : BuildConfig) (nCcalls : Nat) : LoadM Proto := do
  loadHeader cfg
  loadFunction cfg (maxCCalls - nCcalls) (some unknownSource)

/-- `gafqU_undump` with the buffer `h` of `LoadHeader`; `none` if a store lies outside. -/
def undumpInto (cfg : BuildConfig) (h : HeaderBuffer) (nCcalls : Nat) (z : Zio) : Option (Except LoadError (Proto × Zio)) :=
  (fillHeader cfg h.val).map fun _ => undump cfg nCcalls z

end Gafq
