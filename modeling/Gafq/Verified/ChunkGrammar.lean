import Gafq.Verified.DumpRoundTrip

/-! # The grammar of precompiled chunks

What bytes stand for which function, as relations that mention no loader: `FunctionImage` and the
images of its fields.  The loader decodes exactly this grammar, so that what it can return is read
off the grammar.  Nothing in the grammar keeps the size of a string from being zero: the loader
turns such a field into `NULL`, also where the interpreter and the debug library later follow the
pointer (a string constant, the name of a local variable or of an upvalue).
-/

namespace Gafq

open Base

/-! ## Fields -/

def ByteImage (bytes : List UInt8) (b : UInt8) : Prop := bytes = [b]

def BlockImage (n : Nat) (bytes block : List UInt8) : Prop := bytes = block ∧ block.length = n

def RawIntImage (cfg : BuildConfig) (bytes : List UInt8) (x : Int) : Prop :=
  bytes.length = cfg.sizeInt.toNat ∧ x = ofIntImage cfg.littleEndian bytes

def IntImage (cfg : BuildConfig) (bytes : List UInt8) (x : Int) : Prop := RawIntImage cfg bytes x ∧ 0 ≤ x

def InstructionImage (cfg : BuildConfig) (bytes : List UInt8) (i : Instruction) : Prop :=
  bytes.length = cfg.sizeInstruction.toNat ∧ i = UInt32.ofNat (ofNatImage cfg.littleEndian bytes)

/-- A size, and that many bytes, the last of which is dropped; the size zero stands for `NULL`. -/
def StringImage (cfg : BuildConfig) (bytes : List UInt8) (s : Option TString) : Prop :=
  ∃ size body, bytes = size ++ body ∧ size.length = cfg.sizeSizeT.toNat ∧
    body.length = ofNatImage cfg.littleEndian size ∧ s = if body = [] then none else some body.dropLast

/-- A count, and that many elements. -/
def VectorImage {α : Type} (cfg : BuildConfig) (G : List UInt8 → α → Prop) (bytes : List UInt8)
    (xs : List α) : Prop :=
  ∃ count rest, bytes = count ++ rest ∧ IntImage cfg count xs.length ∧ Repeated G rest xs

def ConstantImage (cfg : BuildConfig) (bytes : List UInt8) : Constant → Prop
  | .nil => bytes = [0]
  | .boolean b => ∃ x, bytes = [1, x] ∧ b = (x != 0)
  | .number image => bytes = 3 :: image ∧ image.length = cfg.sizeNumber.toNat
  | .string s => ∃ rest, bytes = 4 :: rest ∧ StringImage cfg rest s

def LocVarImage (cfg : BuildConfig) : List UInt8 → LocVar → Prop :=
  Seq (StringImage cfg) fun varname => Seq (IntImage cfg) fun startpc => Seq (IntImage cfg) fun endpc =>
    Empty ⟨varname, startpc, endpc⟩

/-! ## Functions -/

/-- A function that the checker accepts, nested at most `levels` deep; `p` is the source it
inherits when it has none. -/
def FunctionImage (cfg : BuildConfig) : Nat → Option TString → List UInt8 → Proto → Prop
  | 0, _ => fun _ _ => False
  | levels + 1, p =>
    Seq (StringImage cfg) fun name =>
    Seq (IntImage cfg) fun linedefined =>
    Seq (IntImage cfg) fun lastlinedefined =>
    Seq ByteImage fun nups =>
    Seq ByteImage fun numparams =>
    Seq ByteImage fun isVararg =>
    Seq ByteImage fun maxstacksize =>
    Seq (VectorImage cfg (InstructionImage cfg)) fun code =>
    Seq (VectorImage cfg (ConstantImage cfg)) fun k =>
    Seq (VectorImage cfg (FunctionImage cfg levels (if name = none then p else name))) fun nested =>
    Seq (VectorImage cfg (RawIntImage cfg)) fun lineinfo =>
    Seq (VectorImage cfg (LocVarImage cfg)) fun locvars =>
    Seq (VectorImage cfg (StringImage cfg)) fun upvalues bytes f =>
      f = ⟨k, code, nested, lineinfo, locvars, upvalues, if name = none then p else name, linedefined,
        lastlinedefined, nups, numparams, isVararg, maxstacksize⟩ ∧
      checkcode f = true ∧ bytes = []

/-- A chunk at the beginning of the stream: the header of this build, and a function. -/
def ChunkImage (cfg : BuildConfig) (nCcalls : Nat) : List UInt8 → Proto → Prop :=
  Seq (fun bytes (_ : Unit) => bytes = headerBuffer cfg) fun _ =>
    FunctionImage cfg (maxCCalls - nCcalls) (some unknownSource)

/-! ## The loader decodes the grammar -/

section Config

variable {cfg : BuildConfig}

theorem loadBlock_decodes (n : Nat) : Decodes Zio.content (loadBlock n) (BlockImage n) where
  complete := by
    rintro bytes block ⟨rfl, length⟩
    exact loadBlock_consumes bytes length
  sound := by
    intro z block z' ran
    simp only [loadBlock] at ran
    split at ran
    · cases ran
    · rename_i complete
      cases ran
      obtain ⟨length, split⟩ := Zio.read_complete (not_not.mp complete)
      exact ⟨_, split, rfl, length⟩

/-- A field of fixed size, decoded by a function of its bytes. -/
theorem loadBlock_map_decodes {α : Type} (n : Nat) (f : List UInt8 → α) :
    Decodes Zio.content (loadBlock n >>= fun bytes => pure (f bytes))
      fun bytes x => bytes.length = n ∧ x = f bytes := by
  refine ((loadBlock_decodes n).bind fun bytes => Decodes.pure (f bytes)).of_iff fun bytes x => ⟨?_, ?_⟩
  · rintro ⟨first, second, block, rfl, ⟨rfl, length⟩, rfl, rfl⟩
    simp [length]
  · rintro ⟨length, rfl⟩
    exact ⟨bytes, [], bytes, by simp, ⟨rfl, length⟩, rfl, rfl⟩

theorem loadByte_decodes : Decodes Zio.content loadByte ByteImage := by
  refine (loadBlock_map_decodes 1 fun bytes => bytes.headD 0).of_iff fun bytes b => ⟨?_, ?_⟩
  · rintro ⟨length, rfl⟩
    obtain ⟨x, rfl⟩ := List.length_eq_one_iff.mp length
    rfl
  · rintro rfl
    exact ⟨rfl, rfl⟩

theorem loadRawInt_decodes : Decodes Zio.content (loadRawInt cfg) (RawIntImage cfg) :=
  loadBlock_map_decodes _ _

theorem loadInstruction_decodes : Decodes Zio.content (loadInstruction cfg) (InstructionImage cfg) :=
  loadBlock_map_decodes _ _

theorem loadInt_decodes : Decodes Zio.content (loadInt cfg) (IntImage cfg) := by
  have decodes : Decodes Zio.content (loadInt cfg) (Seq (BlockImage cfg.sizeInt.toNat) fun bytes items x =>
      0 ≤ ofIntImage cfg.littleEndian bytes ∧ Empty (ofIntImage cfg.littleEndian bytes) items x) := by
    refine (loadBlock_decodes _).bind fun bytes => ?_
    by_cases negative : ofIntImage cfg.littleEndian bytes < 0
    · simp only [negative, if_true]
      exact (Decodes.throw _).of_iff fun _ _ => ⟨False.elim, fun derived => by omega⟩
    · simp only [negative, if_false]
      exact (Decodes.pure _).of_iff fun _ _ => ⟨fun empty => ⟨by omega, empty⟩, And.right⟩
  refine decodes.of_iff fun bytes x => ⟨?_, ?_⟩
  · rintro ⟨first, second, block, rfl, ⟨rfl, length⟩, positive, rfl, rfl⟩
    rw [List.append_nil]
    exact ⟨⟨length, rfl⟩, positive⟩
  · rintro ⟨⟨length, rfl⟩, positive⟩
    exact ⟨bytes, [], bytes, by simp, ⟨rfl, length⟩, positive, rfl, rfl⟩

theorem loadString_decodes : Decodes Zio.content (loadString cfg) (StringImage cfg) := by
  have decodes : Decodes Zio.content (loadString cfg) (Seq (BlockImage cfg.sizeSizeT.toNat) fun size body s =>
      body.length = ofNatImage cfg.littleEndian size ∧
      s = if body = [] then none else some body.dropLast) := by
    refine (loadBlock_decodes _).bind fun size => ?_
    by_cases absent : ofNatImage cfg.littleEndian size = 0
    · simp only [absent, if_true]
      refine (Decodes.pure _).of_iff fun body s => ⟨?_, ?_⟩
      · rintro ⟨rfl, rfl⟩
        exact ⟨rfl, rfl⟩
      · rintro ⟨length, rfl⟩
        cases List.eq_nil_of_length_eq_zero length
        exact ⟨rfl, rfl⟩
    · simp only [absent, if_false]
      refine (loadBlock_map_decodes _ _).of_iff fun body s => ?_
      refine and_congr_right fun length => ?_
      have nonempty : body ≠ [] := by
        rintro rfl
        exact absent length.symm
      rw [if_neg nonempty, List.dropLast_eq_take, length]
  refine decodes.of_iff fun bytes s => ⟨?_, ?_⟩
  · rintro ⟨size, body, block, rfl, ⟨rfl, length⟩, counted, rfl⟩
    exact ⟨size, body, rfl, length, counted, rfl⟩
  · rintro ⟨size, body, rfl, length, counted, rfl⟩
    exact ⟨size, body, size, rfl, ⟨rfl, length⟩, counted, rfl⟩

theorem loadVector_decodes {α : Type} {element : LoadM α} {G : List UInt8 → α → Prop}
    (each : Decodes Zio.content element G) :
    Decodes Zio.content (loadVector cfg element) (VectorImage cfg G) := by
  refine (loadInt_decodes.bind fun n => each.repeat n.toNat).of_iff fun bytes xs => ⟨?_, ?_⟩
  · rintro ⟨count, rest, n, rfl, counted, length, repeated⟩
    have : (xs.length : Int) = n := by rw [length]; exact Int.toNat_of_nonneg counted.2
    exact ⟨count, rest, rfl, this ▸ counted, repeated⟩
  · rintro ⟨count, rest, rfl, counted, repeated⟩
    exact ⟨count, rest, xs.length, rfl, counted, by simp, repeated⟩

theorem loadLocVar_decodes : Decodes Zio.content (loadLocVar cfg) (LocVarImage cfg) :=
  loadString_decodes.bind fun _ => loadInt_decodes.bind fun _ => loadInt_decodes.bind fun _ => Decodes.pure _

theorem loadConstant_decodes : Decodes Zio.content (loadConstant cfg) (ConstantImage cfg) := by
  have decodes : Decodes Zio.content (loadConstant cfg) (Seq ByteImage fun t rest c =>
      match c with
      | .nil => t = 0 ∧ rest = []
      | .boolean b => t = 1 ∧ ∃ x, rest = [x] ∧ b = (x != 0)
      | .number image => t = 3 ∧ rest = image ∧ image.length = cfg.sizeNumber.toNat
      | .string s => t = 4 ∧ StringImage cfg rest s) := by
    refine loadByte_decodes.bind fun t => ?_
    by_cases isNil : t = 0
    · subst isNil
      refine (Decodes.pure Constant.nil).of_iff fun rest c => ⟨?_, ?_⟩
      · rintro ⟨rfl, rfl⟩
        exact ⟨rfl, rfl⟩
      · intro derived
        cases c with
        | nil => exact ⟨derived.2, rfl⟩
        | boolean | number | string => exact absurd derived.1 (by decide)
    by_cases isBoolean : t = 1
    · subst isBoolean
      refine (loadByte_decodes.bind fun b => Decodes.pure (Constant.boolean (b != 0))).of_iff
        fun rest c => ⟨?_, ?_⟩
      · rintro ⟨first, second, x, rfl, rfl, rfl, rfl⟩
        exact ⟨rfl, x, rfl, rfl⟩
      · intro derived
        cases c with
        | boolean b =>
          obtain ⟨-, x, rfl, rfl⟩ := derived
          exact ⟨[x], [], x, rfl, rfl, rfl, rfl⟩
        | nil | number | string => exact absurd derived.1 (by decide)
    by_cases isNumber : t = 3
    · subst isNumber
      refine ((loadBlock_decodes _).bind fun image => Decodes.pure (Constant.number image)).of_iff
        fun rest c => ⟨?_, ?_⟩
      · rintro ⟨first, second, image, rfl, ⟨rfl, length⟩, rfl, rfl⟩
        exact ⟨rfl, by simp, length⟩
      · intro derived
        cases c with
        | number image =>
          obtain ⟨-, rfl, length⟩ := derived
          exact ⟨rest, [], rest, by simp, ⟨rfl, length⟩, rfl, rfl⟩
        | nil | boolean | string => exact absurd derived.1 (by decide)
    by_cases isString : t = 4
    · subst isString
      refine (loadString_decodes.bind fun s => Decodes.pure (Constant.string s)).of_iff
        fun rest c => ⟨?_, ?_⟩
      · rintro ⟨first, second, s, rfl, derived, rfl, rfl⟩
        exact ⟨rfl, by simpa using derived⟩
      · intro derived
        cases c with
        | string s => exact ⟨rest, [], s, by simp, derived.2, rfl, rfl⟩
        | nil | boolean | number => exact absurd derived.1 (by decide)
    · simp only [isNil, isBoolean, isNumber, isString, if_false]
      refine (Decodes.throw _).of_iff fun rest c => ⟨False.elim, fun derived => ?_⟩
      cases c with
      | nil | boolean | number | string => exact derived.1.elim
  refine decodes.of_iff fun bytes c => ⟨?_, ?_⟩
  · rintro ⟨first, rest, t, rfl, rfl, derived⟩
    cases c with
    | nil =>
      obtain ⟨rfl, rfl⟩ := derived
      rfl
    | boolean b =>
      obtain ⟨rfl, x, rfl, rfl⟩ := derived
      exact ⟨x, rfl, rfl⟩
    | number image =>
      obtain ⟨rfl, rfl, length⟩ := derived
      exact ⟨rfl, length⟩
    | string s =>
      obtain ⟨rfl, derived⟩ := derived
      exact ⟨rest, rfl, derived⟩
  · intro derived
    cases c with
    | nil => exact ⟨[0], [], 0, derived, rfl, rfl, rfl⟩
    | boolean b =>
      obtain ⟨x, rfl, rfl⟩ := derived
      exact ⟨[1], [x], 1, rfl, rfl, rfl, x, rfl, rfl⟩
    | number image => exact ⟨[3], image, 3, derived.1, rfl, rfl, rfl, derived.2⟩
    | string s =>
      obtain ⟨rest, rfl, derived⟩ := derived
      exact ⟨[4], rest, 4, rfl, rfl, rfl, derived⟩

theorem loadFunction_decodes (levels : Nat) (p : Option TString) :
    Decodes Zio.content (loadFunction cfg levels p) (FunctionImage cfg levels p) := by
  induction levels generalizing p with
  | zero => exact Decodes.throw _
  | succ levels inductionHypothesis =>
    refine loadString_decodes.bind fun name => loadInt_decodes.bind fun linedefined =>
      loadInt_decodes.bind fun lastlinedefined => loadByte_decodes.bind fun nups =>
      loadByte_decodes.bind fun numparams => loadByte_decodes.bind fun isVararg =>
      loadByte_decodes.bind fun maxstacksize => ?_
    refine (loadVector_decodes loadInstruction_decodes).bind fun code =>
      (loadVector_decodes loadConstant_decodes).bind fun k =>
      (loadVector_decodes (inductionHypothesis _)).bind fun nested =>
      (loadVector_decodes loadRawInt_decodes).bind fun lineinfo =>
      (loadVector_decodes loadLocVar_decodes).bind fun locvars =>
      (loadVector_decodes loadString_decodes).bind fun upvalues => ?_
    generalize (if name = none then p else name) = source
    dsimp only
    split
    · rename_i accepted
      refine (Decodes.pure _).of_iff fun bytes f => ⟨?_, ?_⟩
      · rintro ⟨rfl, rfl⟩
        exact ⟨rfl, accepted, rfl⟩
      · rintro ⟨rfl, -, rfl⟩
        exact ⟨rfl, rfl⟩
    · rename_i rejected
      refine (Decodes.throw _).of_iff fun bytes f => ⟨False.elim, ?_⟩
      rintro ⟨rfl, accepted, -⟩
      exact rejected accepted

theorem loadHeader_decodes :
    Decodes Zio.content (loadHeader cfg) fun bytes (_ : Unit) => bytes = headerBuffer cfg := by
  have decodes : Decodes Zio.content (loadHeader cfg) (Seq (BlockImage headerSize) fun s items (u : Unit) =>
      headerBuffer cfg = s ∧ Empty () items u) := by
    refine (loadBlock_decodes headerSize).bind fun s => ?_
    split
    · rename_i same
      exact (Decodes.pure ()).of_iff fun items u => ⟨fun empty => ⟨same, empty⟩, And.right⟩
    · rename_i different
      exact (Decodes.throw _).of_iff fun items u => ⟨False.elim, fun derived => different derived.1⟩
  refine decodes.of_iff fun bytes u => ⟨?_, ?_⟩
  · rintro ⟨first, second, s, rfl, ⟨rfl, -⟩, rfl, rfl, -⟩
    rw [List.append_nil]
  · rintro rfl
    exact ⟨headerBuffer cfg, [], headerBuffer cfg, by simp, ⟨rfl, by simp [headerBuffer, header, headerSize, signature]⟩,
      rfl, rfl, rfl⟩

/-- The loader returns `f` exactly when the stream begins with a chunk that stands for `f`. -/
theorem undump_decodes (nCcalls : Nat) :
    Decodes Zio.content (undump cfg nCcalls) (ChunkImage cfg nCcalls) :=
  loadHeader_decodes.bind fun _ => loadFunction_decodes _ _

end Config

/-! ## Well-formed prototypes -/

/-- A property of a prototype and of all the prototypes nested in it. -/
inductive Proto.Everywhere (P : Proto → Prop) : Proto → Prop where
  | node {f : Proto} (here : P f) (nested : ∀ g ∈ f.p, Everywhere P g) : Everywhere P f

/-- A string constant is a string and a boolean is the integer 0 or 1. -/
def Constant.Proper : Constant → Prop
  | .nil | .number _ => True
  | .boolean b => boolByte b = 0 ∨ boolByte b = 1
  | .string s => s ≠ none

/-- No string that the interpreter or the debug library takes for granted is `NULL`. -/
structure Proto.Named (f : Proto) : Prop where
  constants : Constant.string none ∉ f.k
  locvars : ∀ v ∈ f.locvars, v.varname ≠ none
  upvalues : none ∉ f.upvalues

structure Proto.WellFormed (f : Proto) : Prop where
  accepted : checkcode f = true
  constants : ∀ c ∈ f.k, c.Proper
  locvars : ∀ v ∈ f.locvars, v.varname ≠ none
  upvalues : ∀ u ∈ f.upvalues, u ≠ none

theorem Proto.wellFormed_iff {f : Proto} : f.WellFormed ↔ checkcode f = true ∧ f.Named := by
  constructor
  · intro wellFormed
    exact ⟨wellFormed.accepted, fun absent => wellFormed.constants _ absent rfl, wellFormed.locvars,
      fun absent => wellFormed.upvalues _ absent rfl⟩
  · rintro ⟨accepted, named⟩
    refine ⟨accepted, fun c member => ?_, named.locvars, fun u member absent => named.upvalues (absent ▸ member)⟩
    cases c with
    | nil | number => trivial
    | boolean b => cases b <;> simp [Constant.Proper, boolByte]
    | string s =>
      rintro rfl
      exact named.constants member

theorem Proto.Everywhere.and {P Q : Proto → Prop} {f : Proto} (first : f.Everywhere P)
    (second : f.Everywhere Q) : f.Everywhere fun g => P g ∧ Q g := by
  induction first with
  | node here nested inductionHypothesis =>
    cases second with
    | node here' nested' =>
      exact .node ⟨here, here'⟩ fun g member => inductionHypothesis g member (nested' g member)

theorem Proto.Everywhere.mono {P Q : Proto → Prop} {f : Proto} (everywhere : f.Everywhere P)
    (weaker : ∀ g, P g → Q g) : f.Everywhere Q := by
  induction everywhere with
  | node here _ inductionHypothesis => exact .node (weaker _ here) inductionHypothesis

theorem Repeated.forall {α β : Type} {G : List β → α → Prop} {P : α → Prop} {items : List β} {xs : List α}
    (repeated : Repeated G items xs) (each : ∀ items x, G items x → P x) : ∀ x ∈ xs, P x := by
  obtain ⟨parts, -, derived⟩ := repeated
  intro x member
  induction derived with
  | nil => cases member
  | cons head _ inductionHypothesis =>
    rcases List.mem_cons.mp member with rfl | member
    · exact each _ _ head
    · exact inductionHypothesis member

/-- Every function of a loaded tree was checked. -/
theorem FunctionImage.accepted {cfg : BuildConfig} {levels : Nat} {p : Option TString} {bytes : List UInt8}
    {f : Proto} (image : FunctionImage cfg levels p bytes f) : f.Everywhere fun g => checkcode g = true := by
  induction levels generalizing p bytes f with
  | zero => exact image.elim
  | succ levels inductionHypothesis =>
    obtain ⟨_, _, name, -, -, _, _, _, -, -, _, _, _, -, -, _, _, _, -, -, _, _, _, -, -, _, _, _, -, -,
      _, _, _, -, -, image⟩ := image
    obtain ⟨_, _, code, -, -, _, _, k, -, -, _, _, nested, -, ⟨_, _, -, -, functions⟩, image⟩ := image
    obtain ⟨_, _, _, -, -, _, _, _, -, -, _, _, _, -, -, same, accepted, -⟩ := image
    refine .node accepted fun g member => ?_
    rw [same] at member
    exact Repeated.forall functions (fun _ _ image => inductionHypothesis image) g member

/-! ## What the loader guarantees -/

/-- The stream is refused, or the tree returned is well formed and each of its arrays has as many
elements as the stream says. -/
def LoadsWellFormed (cfg : BuildConfig) (nCcalls : Nat) (z : Zio) : Prop :=
  ∀ f z', undump cfg nCcalls z = .ok (f, z') → f.Everywhere Proto.WellFormed ∧
    ∃ bytes, z.content = bytes ++ z'.content ∧ ChunkImage cfg nCcalls bytes f

/-- The stream begins with an acceptable chunk in which a string constant, the name of a local
variable or the name of an upvalue has size zero. -/
def AbsentName (cfg : BuildConfig) (nCcalls : Nat) (stream : List UInt8) : Prop :=
  ∃ bytes rest f, stream = bytes ++ rest ∧ ChunkImage cfg nCcalls bytes f ∧ ¬ f.Everywhere Proto.Named

theorem undump_wellFormed_iff (cfg : BuildConfig) (nCcalls : Nat) (z : Zio) :
    LoadsWellFormed cfg nCcalls z ↔ ¬ AbsentName cfg nCcalls z.content := by
  constructor
  · rintro loads ⟨bytes, rest, f, split, image, absent⟩
    obtain ⟨z', ran, -⟩ := (undump_decodes nCcalls).complete bytes f image z rest split
    exact absent ((loads f z' ran).1.mono fun g wellFormed => (Proto.wellFormed_iff.mp wellFormed).2)
  · intro present f z' ran
    obtain ⟨bytes, split, image⟩ := (undump_decodes nCcalls).sound z f z' ran
    refine ⟨?_, bytes, split, image⟩
    have named : f.Everywhere Proto.Named := by
      by_contra absent
      exact present ⟨bytes, _, f, split, image, absent⟩
    obtain ⟨_, _, _, -, -, function⟩ := image
    exact (function.accepted.and named).mono fun g both => Proto.wellFormed_iff.mpr both

/-- `LOADK 0 0; RETURN 0 1` with one string constant, whose size is zero, and nothing else. -/
def absentConstantChunk : List UInt8 :=
  headerBuffer doubleBuild ++
  [0, 0, 0, 0, 0, 0, 0, 0,  0, 0, 0, 0,  0, 0, 0, 0,  0, 0, 0, 2,
   2, 0, 0, 0,  1, 0, 0, 0,  30, 0, 128, 0,
   1, 0, 0, 0,  4, 0, 0, 0, 0, 0, 0, 0, 0,
   0, 0, 0, 0,  0, 0, 0, 0,  0, 0, 0, 0,  0, 0, 0, 0]

/-- The constants of the tree that a stream is loaded as. -/
def loadedConstants (cfg : BuildConfig) (z : Zio) : Option (List Constant) :=
  match undump cfg 0 z with
  | .ok (f, _) => some f.k
  | .error _ => none

/-- The chunk is accepted, with a string constant that is no string. -/
theorem undump_absentConstant : ¬ LoadsWellFormed doubleBuild 0 (.init [absentConstantChunk]) := by
  intro loads
  have constants : loadedConstants doubleBuild (.init [absentConstantChunk]) = some [.string none] := by
    decide +kernel
  simp only [loadedConstants] at constants
  split at constants
  · rename_i f z' ran
    obtain ⟨here, -⟩ := (loads f z' ran).1
    have member : Constant.string none ∈ f.k := by simp [Option.some.inj constants]
    exact here.constants _ member rfl
  · cases constants

end Gafq
