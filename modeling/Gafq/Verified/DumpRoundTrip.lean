import Gafq.Dump

/-! # Loading what was dumped

Writer and reader of precompiled chunks are separate code; this module shows field by field that
they agree, for every cutting of the stream into blocks.  The facts are `Consumes` statements: the
loader turns exactly the bytes of a value into that value and leaves the rest of the stream.
-/

namespace Gafq

open Base

/-! ## Blocks and values -/

theorem writeBlocks_collect (blocks : List Block) (out : List UInt8) :
    writeBlocks collect out 0 blocks = (out ++ blocks.flatten, 0) := by
  induction blocks generalizing out with
  | nil => simp [writeBlocks]
  | cons b blocks inductionHypothesis => simp [writeBlocks, collect, inductionHypothesis]

theorem loadBlock_consumes {n : Nat} (bs : List UInt8) (length : bs.length = n) :
    Consumes Zio.content (loadBlock n) bs bs := by
  subst length
  intro z rest holds
  obtain ⟨z', read, left⟩ := Zio.read_content holds
  exact ⟨z', by simp [loadBlock, read], left⟩

theorem loadByte_consumes (b : UInt8) : Consumes Zio.content loadByte [b] b :=
  (loadBlock_consumes [b] rfl).map (fun bs : List UInt8 => bs.headD 0)

section Config

variable {cfg : BuildConfig}

/-- A value that `LoadInt` accepts. -/
def CountFits (cfg : BuildConfig) (x : Int) : Prop := 0 ≤ x ∧ SignedFits cfg.sizeInt.toNat x

instance (cfg : BuildConfig) (x : Int) : Decidable (CountFits cfg x) := by
  unfold CountFits; infer_instance

/-- A string whose dumped length fits a `size_t`; `NULL` is not a name. -/
def NameFits (cfg : BuildConfig) : Option TString → Prop
  | none => False
  | some s => s.length + 1 < 256 ^ cfg.sizeSizeT.toNat

instance (cfg : BuildConfig) (s : Option TString) : Decidable (NameFits cfg s) := by
  unfold NameFits; split <;> infer_instance

theorem loadRawInt_consumes {x : Int} (fits : SignedFits cfg.sizeInt.toNat x) :
    Consumes Zio.content (loadRawInt cfg) (dumpInt cfg x) x := by
  refine (loadBlock_consumes (dumpInt cfg x) (length_intImage ..)).finish ?_
  rw [dumpInt, ofIntImage_intImage _ fits]
  exact Consumes.pure x

theorem loadInt_consumes {x : Int} (fits : CountFits cfg x) :
    Consumes Zio.content (loadInt cfg) (dumpInt cfg x) x := by
  refine (loadBlock_consumes (dumpInt cfg x) (length_intImage ..)).finish ?_
  simp only [dumpInt, ofIntImage_intImage _ fits.2, Int.not_lt.mpr fits.1, if_false]
  exact Consumes.pure x

theorem loadInstruction_consumes (wide : 4 ≤ cfg.sizeInstruction.toNat) (i : Instruction) :
    Consumes Zio.content (loadInstruction cfg) (dumpInstruction cfg i) i := by
  have fits : i.toNat < 256 ^ cfg.sizeInstruction.toNat := by
    calc i.toNat < 256 ^ 4 := i.toNat_lt
      _ ≤ 256 ^ cfg.sizeInstruction.toNat := Nat.pow_le_pow_right (by decide) wide
  refine (loadBlock_consumes (dumpInstruction cfg i) (length_natImage ..)).finish ?_
  rw [dumpInstruction, ofNatImage_natImage _ fits, UInt32.ofNat_toNat]
  exact Consumes.pure i

/-- A string is read back, whether it is `NULL` or not. -/
theorem loadString_consumes {s : Option TString} (fits : s = none ∨ NameFits cfg s) :
    Consumes Zio.content (loadString cfg) (dumpString cfg s).flatten s := by
  cases s with
  | none =>
    have written : (dumpString cfg none).flatten = dumpSize cfg 0 := by simp [dumpString]
    rw [written]
    refine (loadBlock_consumes (dumpSize cfg 0) (length_natImage ..)).finish ?_
    simp only [dumpSize, ofNatImage_natImage _ (Nat.pow_pos (by decide)), if_true]
    exact Consumes.pure none
  | some s =>
    have small : s.length + 1 < 256 ^ cfg.sizeSizeT.toNat := fits.resolve_left (by simp)
    have written : (dumpString cfg (some s)).flatten = dumpSize cfg (s.length + 1) ++ (s ++ [0]) := by
      simp [dumpString]
    rw [written]
    refine (loadBlock_consumes (dumpSize cfg (s.length + 1)) (length_natImage ..)).bind ?_
    simp only [dumpSize, ofNatImage_natImage _ small, Nat.add_one_ne_zero, if_false, Nat.add_sub_cancel]
    refine (loadBlock_consumes (s ++ [0]) (by simp)).finish ?_
    rw [List.take_left]
    exact Consumes.pure (some s)

/-- A counted sequence is read back when each of its elements is. -/
theorem loadVector_consumes {α γ : Type} {element : LoadM α} (encode : γ → List UInt8) (result : γ → α)
    {xs : List γ} (fits : CountFits cfg xs.length)
    (each : ∀ x ∈ xs, Consumes Zio.content element (encode x) (result x)) :
    Consumes Zio.content (loadVector cfg element) (dumpInt cfg xs.length ++ xs.flatMap encode)
      (xs.map result) := by
  refine (loadInt_consumes fits).bind ?_
  exact Consumes.repeat encode result xs each

/-- A constant that the format can carry: numbers have the size of a `gafq_Number`, and a string
is not `NULL`. -/
def ConstantFits (cfg : BuildConfig) : Constant → Prop
  | .nil | .boolean _ => True
  | .number image => image.length = cfg.sizeNumber.toNat
  | .string s => NameFits cfg s

instance (cfg : BuildConfig) (c : Constant) : Decidable (ConstantFits cfg c) := by
  unfold ConstantFits; split <;> infer_instance

theorem loadConstant_consumes {c : Constant} (fits : ConstantFits cfg c) :
    Consumes Zio.content (loadConstant cfg) (dumpConstant cfg c).flatten c := by
  cases c with
  | nil => exact (loadByte_consumes 0).finish (Consumes.pure Constant.nil)
  | boolean b =>
    refine (loadByte_consumes 1).bind ((loadByte_consumes (boolByte b)).finish ?_)
    cases b <;> exact Consumes.pure _
  | number image =>
    have written : (dumpConstant cfg (.number image)).flatten = [3] ++ image := by simp [dumpConstant]
    rw [written]
    exact (loadByte_consumes 3).bind ((loadBlock_consumes image fits).map Constant.number)
  | string s =>
    have written : (dumpConstant cfg (.string s)).flatten = [4] ++ (dumpString cfg s).flatten := by
      simp [dumpConstant]
    rw [written]
    exact (loadByte_consumes 4).bind ((loadString_consumes (.inr fits)).map Constant.string)

def LocVarFits (cfg : BuildConfig) (v : LocVar) : Prop :=
  NameFits cfg v.varname ∧ CountFits cfg v.startpc ∧ CountFits cfg v.endpc

instance (cfg : BuildConfig) (v : LocVar) : Decidable (LocVarFits cfg v) := by
  unfold LocVarFits; infer_instance

theorem loadLocVar_consumes {v : LocVar} (fits : LocVarFits cfg v) :
    Consumes Zio.content (loadLocVar cfg) (dumpLocVar cfg v).flatten v := by
  have written : (dumpLocVar cfg v).flatten =
      (dumpString cfg v.varname).flatten ++ (dumpInt cfg v.startpc ++ dumpInt cfg v.endpc) := by
    simp [dumpLocVar]
  rw [written]
  refine (loadString_consumes (.inr fits.1)).bind ((loadInt_consumes fits.2.1).bind ?_)
  exact (loadInt_consumes fits.2.2).finish (Consumes.pure v)

/-! ## Checked code does not depend on debug information -/

/-- Two prototypes that the checker cannot tell apart. -/
structure SameCode (f g : Proto) : Prop where
  code : g.code = f.code
  k : g.k = f.k
  sizep : g.sizep = f.sizep
  nestedNups : g.nestedNups = f.nestedNups
  nups : g.nups = f.nups
  numparams : g.numparams = f.numparams
  isVararg : g.isVararg = f.isVararg
  maxstacksize : g.maxstacksize = f.maxstacksize

namespace SameCode

variable {f g : Proto}

theorem instr (same : SameCode f g) : g.instr = f.instr := by
  funext pc; simp only [Proto.instr, same.code]

theorem sizecode (same : SameCode f g) : g.sizecode = f.sizecode := by
  simp only [Proto.sizecode, same.code]

theorem sizek (same : SameCode f g) : g.sizek = f.sizek := by
  simp only [Proto.sizek, same.k]

theorem checkReg (same : SameCode f g) : Gafq.checkReg g = Gafq.checkReg f := by
  funext reg; simp only [Gafq.checkReg, same.maxstacksize]

theorem checkArgMode (same : SameCode f g) : Gafq.checkArgMode g = Gafq.checkArgMode f := by
  funext r mode
  cases mode <;> simp only [Gafq.checkArgMode, same.checkReg, same.sizek]

theorem setlistRun (same : SameCode f g) : Gafq.setlistRun g = Gafq.setlistRun f := by
  funext dest
  induction dest with
  | zero => rfl
  | succ m inductionHypothesis => simp only [Gafq.setlistRun, same.instr, inductionHypothesis]

theorem opChecks (same : SameCode f g) : Gafq.opChecks g = Gafq.opChecks f := by
  funext pc i op
  cases op <;>
    simp only [Gafq.opChecks, same.checkReg, same.instr, same.sizecode, same.sizep, same.nestedNups,
      same.nups, Proto.const, same.k, Proto.varargFlag, same.isVararg]

theorem stepChecks (same : SameCode f g) : Gafq.stepChecks g = Gafq.stepChecks f := by
  funext pc
  simp only [Gafq.stepChecks, Gafq.operandChecks, Gafq.testChecks, Gafq.checkDest, same.instr, same.sizecode,
    same.checkReg, same.checkArgMode, same.setlistRun, same.opChecks, same.sizek]

theorem symbexecLoop (same : SameCode f g) (lastpc reg fuel pc last : Nat) :
    Gafq.symbexecLoop g lastpc reg fuel pc last = Gafq.symbexecLoop f lastpc reg fuel pc last := by
  induction fuel generalizing pc last with
  | zero => rfl
  | succ fuel inductionHypothesis =>
    simp only [Gafq.symbexecLoop, same.stepChecks, Gafq.stepPc, Gafq.stepLast, same.instr, same.nestedNups,
      inductionHypothesis]

/-- Dropping debug information keeps a function acceptable. -/
theorem checkcode (same : SameCode f g) (upvalues : g.upvalues = []) (lineinfo : g.lineinfo = [])
    (accepted : Gafq.checkcode f = true) : Gafq.checkcode g = true := by
  have weaker : precheck f = true → precheck g = true := by
    simp only [precheck, Proto.hasArg, Proto.varargFlag, same.instr, same.sizecode, same.numparams,
      same.isVararg, same.maxstacksize, Proto.sizeupvalues, upvalues, Proto.sizelineinfo, lineinfo,
      List.length_nil, Bool.and_eq_true, Nat.zero_le, decide_true, beq_self_eq_true, Bool.or_true, and_true]
    exact fun checks => ⟨checks.1.1.1, checks.2⟩
  unfold Gafq.checkcode symbexec at accepted ⊢
  by_cases checked : precheck f = true
  · simpa only [checked, weaker checked, if_true, same.symbexecLoop, same.sizecode, same.instr] using accepted
  · simp [checked] at accepted

end SameCode

/-! ## Functions -/

/-- What a build promises about the fields of a function: counts and lines are `int`s, as `LoadInt`
wants them, and names are not `NULL`. -/
structure Representable (cfg : BuildConfig) (f : Proto) : Prop where
  source : NameFits cfg f.source
  linedefined : CountFits cfg f.linedefined
  lastlinedefined : CountFits cfg f.lastlinedefined
  sizecode : CountFits cfg f.code.length
  sizek : CountFits cfg f.k.length
  sizep : CountFits cfg f.p.length
  sizelineinfo : CountFits cfg f.lineinfo.length
  sizelocvars : CountFits cfg f.locvars.length
  sizeupvalues : CountFits cfg f.upvalues.length
  k : ∀ c ∈ f.k, ConstantFits cfg c
  lineinfo : ∀ line ∈ f.lineinfo, SignedFits cfg.sizeInt.toNat line
  locvars : ∀ v ∈ f.locvars, LocVarFits cfg v
  upvalues : ∀ name ∈ f.upvalues, NameFits cfg name

/-- A function tree of at most `levels` levels whose functions are all representable and accepted
by the code checker. -/
def WellFormed (cfg : BuildConfig) : Nat → Proto → Prop
  | 0, _ => False
  | levels + 1, f => Representable cfg f ∧ checkcode f = true ∧ ∀ g ∈ f.p, WellFormed cfg levels g

mutual

/-- A function without debug information, as a stripped chunk gives it back. -/
def stripped : Proto → Proto
  | ⟨k, code, nested, _, _, _, _, linedefined, lastlinedefined, nups, numparams, isVararg, maxstacksize⟩ =>
    ⟨k, code, strippedNested nested, [], [], [], some unknownSource, linedefined, lastlinedefined,
      nups, numparams, isVararg, maxstacksize⟩

def strippedNested : List Proto → List Proto
  | [] => []
  | f :: fs => stripped f :: strippedNested fs

end

/-- The function that a dump of `f` stands for. -/
def dumped (strip : Bool) (f : Proto) : Proto := if strip then stripped f else f

theorem strippedNested_eq_map (fs : List Proto) : strippedNested fs = fs.map stripped := by
  induction fs with
  | nil => rfl
  | cons f fs inductionHypothesis => rw [strippedNested, inductionHypothesis, List.map_cons]

theorem dumpNested_eq_flatMap (strip : Bool) (fs : List Proto) (p : Option TString) :
    dumpNested cfg strip fs p = fs.flatMap (dumpFunction cfg strip · p) := by
  induction fs with
  | nil => rfl
  | cons f fs inductionHypothesis => rw [dumpNested, inductionHypothesis, List.flatMap_cons]

theorem stripped_sameCode (f : Proto) : SameCode f (stripped f) := by
  obtain ⟨k, code, nested, lineinfo, locvars, upvalues, source, linedefined, lastlinedefined, nups, numparams,
    isVararg, maxstacksize⟩ := f
  refine ⟨rfl, rfl, ?_, ?_, rfl, rfl, rfl, rfl⟩
  · simp [stripped, Proto.sizep, strippedNested_eq_map]
  · funext b
    simp only [stripped, Proto.nestedNups, strippedNested_eq_map, List.getD_eq_getElem?_getD, List.getElem?_map]
    cases nested[b]? with
    | none => rfl
    | some g => cases g; rfl

theorem stripped_checkcode {f : Proto} (accepted : checkcode f = true) : checkcode (stripped f) = true := by
  refine (stripped_sameCode f).checkcode ?_ ?_ accepted <;> cases f <;> rfl

theorem dumped_checkcode (strip : Bool) {f : Proto} (accepted : checkcode f = true) :
    checkcode (dumped strip f) = true := by
  cases strip with
  | true => exact stripped_checkcode accepted
  | false => exact accepted

theorem flatten_dumpEach {α : Type} (element : α → List Block) (xs : List α) :
    (dumpEach cfg element xs).flatten = dumpInt cfg xs.length ++ xs.flatMap fun x => (element x).flatten := by
  rw [dumpEach, List.flatten_cons, List.flatten_eq_flatMap, List.flatMap_assoc]
  simp only [List.flatten_eq_flatMap]

/-- The bytes of a function, grouped as the loader reads them. -/
theorem flatten_dumpFunction (strip : Bool) (f : Proto) (p : Option TString) :
    (dumpFunction cfg strip f p).flatten =
      (dumpString cfg (if f.source = p ∨ strip then none else f.source)).flatten ++
      (dumpInt cfg f.linedefined ++ (dumpInt cfg f.lastlinedefined ++
      ([f.nups] ++ ([f.numparams] ++ ([f.isVararg] ++ ([f.maxstacksize] ++
      ((dumpInt cfg f.code.length ++ f.code.flatMap (dumpInstruction cfg)) ++
      ((dumpInt cfg f.k.length ++ f.k.flatMap fun c => (dumpConstant cfg c).flatten) ++
      ((dumpInt cfg f.p.length ++ f.p.flatMap fun g => (dumpFunction cfg strip g f.source).flatten) ++
      ((dumpInt cfg (if strip then [] else f.lineinfo).length ++
        (if strip then [] else f.lineinfo).flatMap (dumpInt cfg)) ++
      ((dumpInt cfg (if strip then [] else f.locvars).length ++
        (if strip then [] else f.locvars).flatMap fun v => (dumpLocVar cfg v).flatten) ++
      (dumpInt cfg (if strip then [] else f.upvalues).length ++
        (if strip then [] else f.upvalues).flatMap fun name => (dumpString cfg name).flatten)))))))))))) := by
  obtain ⟨k, code, nested, lineinfo, locvars, upvalues, source, linedefined, lastlinedefined, nups, numparams,
    isVararg, maxstacksize⟩ := f
  have each := @flatten_dumpEach cfg _ (dumpFunction cfg strip · source) nested
  rw [dumpEach, ← dumpNested_eq_flatMap] at each
  simp only [dumpFunction, dumpDebug, List.flatten_append, each, flatten_dumpEach, dumpVector,
    List.flatten_cons, List.flatten_nil, List.append_nil, List.append_assoc]

/-- The name written for a function: none when it is stripped or inherited. -/
def writtenSource (strip : Bool) (f : Proto) (p : Option TString) : Option TString :=
  if f.source = p ∨ strip then none else f.source

theorem NameFits.ne_none {s : Option TString} (fits : NameFits cfg s) : s ≠ none := by
  rintro rfl
  exact fits

theorem writtenSource_fits (strip : Bool) {f : Proto} (p : Option TString) (fits : NameFits cfg f.source) :
    writtenSource strip f p = none ∨ NameFits cfg (writtenSource strip f p) := by
  unfold writtenSource
  split
  · exact .inl rfl
  · exact .inr fits

/-- The loader completes the written name with the inherited one to the source of the result. -/
theorem writtenSource_loaded {strip : Bool} {f : Proto} {p inherited : Option TString} (named : f.source ≠ none)
    (whenStripped : strip = true → inherited = some unknownSource)
    (whenKept : strip = false → f.source = p → inherited = p) :
    (if writtenSource strip f p = none then inherited else writtenSource strip f p) = (dumped strip f).source := by
  cases strip with
  | true =>
    simp only [writtenSource, or_true, if_true, whenStripped rfl, dumped]
    cases f; rfl
  | false =>
    by_cases same : f.source = p
    · simp [writtenSource, same, whenKept rfl same, dumped]
    · simp [writtenSource, same, named, dumped]

theorem dumped_eq_mk (strip : Bool) (f : Proto) :
    dumped strip f = ⟨f.k, f.code, f.p.map (dumped strip), if strip then [] else f.lineinfo,
      if strip then [] else f.locvars, if strip then [] else f.upvalues, (dumped strip f).source, f.linedefined,
      f.lastlinedefined, f.nups, f.numparams, f.isVararg, f.maxstacksize⟩ := by
  cases f with
  | mk k code nested =>
    cases strip with
    | true => simp [dumped, stripped, strippedNested_eq_map]
    | false =>
      have same : nested.map (dumped false) = nested := by
        rw [show dumped false = id from rfl, List.map_id]
      simp [dumped, same]

/-- A debug vector is read back, as it is or, in a stripped chunk, empty. -/
theorem loadDebugVector_consumes {α : Type} {element : LoadM α} (strip : Bool) (encode : α → List UInt8)
    {xs : List α} (empty : CountFits cfg 0) (fits : CountFits cfg xs.length)
    (each : ∀ x ∈ xs, Consumes Zio.content element (encode x) x) :
    Consumes Zio.content (loadVector cfg element)
      (dumpInt cfg (if strip then [] else xs).length ++ (if strip then [] else xs).flatMap encode)
      (if strip then [] else xs) := by
  have all : ∀ ys : List α, CountFits cfg ys.length → (∀ y ∈ ys, y ∈ xs) →
      Consumes Zio.content (loadVector cfg element) (dumpInt cfg ys.length ++ ys.flatMap encode) ys := by
    intro ys fits' sub
    have read := loadVector_consumes encode id fits' fun y member => each y (sub y member)
    rwa [List.map_id] at read
  cases strip with
  | true => exact all [] empty (by simp)
  | false => exact all xs fits fun _ member => member

/-- Loading the bytes of a function gives the function back; `p` and `inherited` are the sources
of the enclosing function on the two sides. -/
theorem loadFunction_consumes (wide : 4 ≤ cfg.sizeInstruction.toNat) (strip : Bool) (levels : Nat) :
    ∀ (f : Proto) (p inherited : Option TString), WellFormed cfg levels f →
      (strip = true → inherited = some unknownSource) → (strip = false → f.source = p → inherited = p) →
      Consumes Zio.content (loadFunction cfg levels inherited) (dumpFunction cfg strip f p).flatten
        (dumped strip f) := by
  induction levels with
  | zero => exact fun _ _ _ wellFormed => wellFormed.elim
  | succ levels inductionHypothesis =>
    intro f p inherited ⟨fits, accepted, nested⟩ whenStripped whenKept
    rw [flatten_dumpFunction]
    -- an empty vector is representable, since the size of the code is
    have empty : CountFits cfg 0 := by
      have := fits.sizecode
      simp only [CountFits, SignedFits] at this ⊢
      omega
    refine (loadString_consumes (writtenSource_fits strip p fits.source)).bind ?_
    simp only [writtenSource_loaded fits.source.ne_none whenStripped whenKept]
    refine (loadInt_consumes fits.linedefined).bind ?_
    refine (loadInt_consumes fits.lastlinedefined).bind ?_
    refine (loadByte_consumes f.nups).bind ?_
    refine (loadByte_consumes f.numparams).bind ?_
    refine (loadByte_consumes f.isVararg).bind ?_
    refine (loadByte_consumes f.maxstacksize).bind ?_
    refine (loadVector_consumes (dumpInstruction cfg) id fits.sizecode
      fun i _ => loadInstruction_consumes wide i).bind ?_
    refine (loadVector_consumes _ id fits.sizek
      fun c member => loadConstant_consumes (fits.k c member)).bind ?_
    refine (loadVector_consumes _ (dumped strip) fits.sizep ?_).bind ?_
    · -- on both sides the nested functions inherit the source of this one
      intro g member
      refine inductionHypothesis g _ _ (nested g member) ?_ ?_
      · rintro rfl
        cases f; rfl
      · rintro rfl _
        rfl
    refine (loadDebugVector_consumes strip (dumpInt cfg) empty fits.sizelineinfo
      fun line member => loadRawInt_consumes (fits.lineinfo line member)).bind ?_
    refine (loadDebugVector_consumes strip _ empty fits.sizelocvars
      fun v member => loadLocVar_consumes (fits.locvars v member)).bind ?_
    refine (loadDebugVector_consumes strip _ empty fits.sizeupvalues
      fun name member => loadString_consumes (.inr (fits.upvalues name member))).finish ?_
    simp only [List.map_id, ← dumped_eq_mk, dumped_checkcode strip accepted, if_true]
    exact Consumes.pure _

/-! ## Headers and whole chunks -/

theorem loadHeader_consumes : Consumes Zio.content (loadHeader cfg) (headerBuffer cfg) () := by
  refine (loadBlock_consumes (headerBuffer cfg) rfl).finish ?_
  simp only [if_true]
  exact Consumes.pure ()

/-- Every well-formed function tree survives a dump and a load, whichever way the reader cuts the
bytes into blocks, and the loader stops exactly behind them. -/
theorem undump_dump (wide : 4 ≤ cfg.sizeInstruction.toNat) (strip : Bool) {nCcalls : Nat} {f : Proto}
    (wellFormed : WellFormed cfg (maxCCalls - nCcalls) f) (z : Zio) (rest : List UInt8)
    (holds : z.content = (dump cfg f collect [] strip).1 ++ rest) :
    (dump cfg f collect [] strip).2 = 0 ∧
    ∃ z', undump cfg nCcalls z = .ok (if strip then stripped f else f, z') ∧ z'.content = rest := by
  have bytes : dump cfg f collect [] strip =
      (headerBuffer cfg ++ (dumpFunction cfg strip f none).flatten, 0) := by
    simp only [dump, writeBlocks_collect, dumpBlocks, dumpHeader, List.nil_append, List.flatten_append,
      List.flatten_cons, List.flatten_nil, List.append_nil]
  have named : f.source ≠ none := by
    cases levels : maxCCalls - nCcalls with
    | zero => rw [levels] at wellFormed; exact wellFormed.elim
    | succ n => rw [levels] at wellFormed; exact wellFormed.1.source.ne_none
  have loads : Consumes Zio.content (undump cfg nCcalls)
      (headerBuffer cfg ++ (dumpFunction cfg strip f none).flatten) (dumped strip f) :=
    loadHeader_consumes.bind <|
      loadFunction_consumes wide strip _ f none (some unknownSource) wellFormed (fun _ => rfl)
        fun _ unnamed => (named unnamed).elim
  rw [bytes] at holds ⊢
  exact ⟨rfl, loads z rest holds⟩

end Config

/-- A build with the usual sizes on a 64-bit machine. -/
def doubleBuild : BuildConfig := ⟨0x51, 0, true, 4, 8, 4, 8, false⟩

/-- `LOADK 0 "x"; CLOSURE 1 0; RETURN 0 1`, with a nested `RETURN 0 1` from another source. -/
def closureMaker : Proto :=
  { (default : Proto) with
    code := [createABx OpCode.loadk.toNat 0 0, createABx OpCode.closure.toNat 1 0,
      createABC OpCode.return.toNat 0 1 0]
    k := [.string (some [120])]
    p := [{ (default : Proto) with
      code := [createABC OpCode.return.toNat 0 1 0]
      lineinfo := [3]
      source := some [64, 98]
      maxstacksize := 2 }]
    lineinfo := [1, 1, 2]
    locvars := [⟨some [121], 1, 2⟩]
    source := some [64, 97]
    maxstacksize := 2 }

theorem closureMaker_wellFormed : WellFormed doubleBuild maxCCalls closureMaker := by
  refine ⟨by constructor <;> decide, by decide, fun g member => ?_⟩
  obtain rfl := List.mem_singleton.1 member
  exact ⟨by constructor <;> decide, by decide, fun g member => by cases member⟩

theorem undump_dump_closureMaker :
    ∃ z', undump doubleBuild 0 (.init [(dump doubleBuild closureMaker collect [] false).1]) =
      .ok (closureMaker, z') ∧ z'.content = [] := by
  have holds (bytes : List UInt8) (some : bytes ≠ []) : (Zio.init [bytes]).content = bytes ++ [] := by
    simp [Zio.content, Zio.init, Zio.upToEnd, some]
  have written : (dump doubleBuild closureMaker collect [] false).1 ≠ [] := by
    simp [dump, dumpBlocks, dumpHeader, writeBlocks_collect, headerBuffer, header, signature, headerSize]
  exact (undump_dump (by decide) false closureMaker_wellFormed _ [] (holds _ written)).2

/-! ## The buffers of the header -/

theorem storeBytes_eq_some_iff (buffer bs : List UInt8) (i : Nat) :
    (∃ filled, storeBytes buffer i bs = some filled) ↔ bs = [] ∨ i + bs.length ≤ buffer.length := by
  induction bs generalizing buffer i with
  | nil => simp [storeBytes]
  | cons b bs inductionHypothesis =>
    by_cases inside : i < buffer.length
    · simp only [storeBytes, inside, if_true, inductionHypothesis, List.length_set, List.length_cons]
      constructor
      · rintro (rfl | room)
        · exact .inr inside
        · exact .inr (by omega)
      · rintro (absent | room)
        · cases absent
        · exact .inr (by omega)
    · simp only [storeBytes, inside, if_false, List.length_cons]
      constructor
      · rintro ⟨_, absent⟩
        cases absent
      · rintro (absent | room)
        · cases absent
        · omega

/-- Stores inside a memory leave there what has been stored. -/
theorem take_storeBytes {buffer bs filled : List UInt8} {i : Nat} (stored : storeBytes buffer i bs = some filled) :
    filled.take (i + bs.length) = buffer.take i ++ bs := by
  induction bs generalizing buffer i with
  | nil =>
    obtain rfl : buffer = filled := Option.some.inj stored
    simp
  | cons b bs inductionHypothesis =>
    by_cases inside : i < buffer.length
    · simp only [storeBytes, inside, if_true] at stored
      have rest := inductionHypothesis stored
      rw [List.length_cons, show i + (bs.length + 1) = i + 1 + bs.length by omega, rest]
      have one : (buffer.set i b).take (i + 1) = buffer.take i ++ [b] := by
        rw [List.take_add_one, List.take_set_of_le (le_refl i)]
        simp [inside]
      rw [one, List.append_assoc, List.singleton_append]
    · simp [storeBytes, inside] at stored

/-- Where the memory from `h` on has room for all the stores, its first bytes are the ones that are written and compared. -/
theorem fillHeader_take {cfg : BuildConfig} {h filled : List UInt8} (stored : fillHeader cfg h = some filled) :
    filled.take headerSize = headerBuffer cfg := by
  have all := take_storeBytes stored
  rw [Nat.zero_add, List.take_zero, List.nil_append] at all
  rw [headerBuffer, ← all, List.take_take]
  rfl

/-- `gafqU_header` stores one byte more than its buffers have. -/
theorem fillHeader_overruns (cfg : BuildConfig) (h : HeaderBuffer) : fillHeader cfg h.val = none := by
  rw [Option.eq_none_iff_forall_ne_some]
  intro filled stored
  obtain absent | room := (storeBytes_eq_some_iff h.val (header cfg) 0).mp ⟨filled, stored⟩
  · simp [header] at absent
  · rw [h.property] at room
    simp [header, signature, headerSize] at room

/-- A function is dumped, and the bytes written are loaded as the function again. -/
def RoundTrips (cfg : BuildConfig) (h h' : HeaderBuffer) (f : Proto) (strip : Bool) (nCcalls : Nat) : Prop :=
  ∃ written, dumpFrom cfg h f collect [] strip = some (written, 0) ∧
    ∀ (z : Zio) (rest : List UInt8), z.content = written ++ rest → ∃ z',
      undumpInto cfg h' nCcalls z = some (.ok (if strip then stripped f else f, z')) ∧ z'.content = rest

/-- No function is dumped, nor is any chunk loaded, with all stores inside the buffers. -/
theorem roundTrips_never (cfg : BuildConfig) (h h' : HeaderBuffer) (f : Proto) (strip : Bool) (nCcalls : Nat) :
    ¬ RoundTrips cfg h h' f strip nCcalls ∧ ∀ z, undumpInto cfg h' nCcalls z = none := by
  constructor
  · rintro ⟨written, dumped, -⟩
    rw [dumpFrom, fillHeader_overruns] at dumped
    cases dumped
  · intro z
    rw [undumpInto, fillHeader_overruns]
    rfl

theorem closureMaker_overruns :
    WellFormed doubleBuild maxCCalls closureMaker ∧
      ¬ RoundTrips doubleBuild ⟨List.replicate 12 0, rfl⟩ ⟨List.replicate 12 0, rfl⟩ closureMaker false 0 := by
  refine ⟨closureMaker_wellFormed, ?_⟩
  rintro ⟨written, dumped, -⟩
  have overrun : fillHeader doubleBuild (List.replicate 12 0) = none := by decide
  rw [dumpFrom, overrun] at dumped
  cases dumped

/-! ## What the header tells apart -/

/-- The fields of a build configuration that reach the compared bytes. -/
def AgreeBeforeFlag (dumper loader : BuildConfig) : Prop :=
  dumper = { loader with integral := dumper.integral }

instance (dumper loader : BuildConfig) : Decidable (AgreeBeforeFlag dumper loader) := by
  unfold AgreeBeforeFlag; infer_instance

theorem boolByte_inj {a b : Bool} : boolByte a = boolByte b ↔ a = b := by
  revert a b; decide

theorem headerBuffer_eq_iff (dumper loader : BuildConfig) :
    headerBuffer loader = headerBuffer dumper ↔ AgreeBeforeFlag dumper loader := by
  cases dumper
  cases loader
  simp [headerBuffer, header, signature, headerSize, AgreeBeforeFlag, boolByte_inj, eq_comm]

/-- A header is accepted when the compared bytes are the same. -/
theorem loadHeader_accepts_iff {dumper loader : BuildConfig} {z : Zio} {rest : List UInt8}
    (holds : z.content = headerBuffer dumper ++ rest) :
    (∃ z', loadHeader loader z = .ok ((), z')) ↔ AgreeBeforeFlag dumper loader := by
  obtain ⟨z', read, -⟩ :
      ∃ z', loadBlock headerSize z = .ok (headerBuffer dumper, z') ∧ z'.content = rest :=
    loadBlock_consumes (headerBuffer dumper) rfl z rest holds
  rw [← headerBuffer_eq_iff]
  have ran : loadHeader loader z =
      if headerBuffer loader = headerBuffer dumper then .ok ((), z') else .error .badHeader := by
    show (loadBlock headerSize z >>= _) = _
    rw [read]
    show (if _ then _ else _ : LoadM Unit) z' = _
    split <;> rfl
  rw [ran]
  split <;> simp [*]

/-- `gafqU_header` always stores one byte more than the buffer has, and that byte, the flag for
integral numbers, is the one that no loader ever compares. -/
theorem header_never_complete (dumper loader : BuildConfig) (z : Zio) (rest : List UInt8)
    (holds : z.content = (dumpHeader dumper).flatten ++ rest) :
    ¬ (((header dumper).length ≤ headerSize ∧ (header loader).length ≤ headerSize) ∧
      ((∃ z', loadHeader loader z = .ok ((), z')) ↔ dumper = loader)) ∧
    ((∃ z', loadHeader loader z = .ok ((), z')) ↔ AgreeBeforeFlag dumper loader) := by
  refine ⟨?_, loadHeader_accepts_iff (by simpa [dumpHeader] using holds)⟩
  rintro ⟨⟨inside, -⟩, -⟩
  exact absurd inside (by simp [header, signature, headerSize])

/-- A build that differs from `doubleBuild` in the kind of its numbers only. -/
def integerBuild : BuildConfig := { doubleBuild with integral := true }

theorem header_never_complete_sameBuild :
    ¬ (((header doubleBuild).length ≤ headerSize ∧ (header doubleBuild).length ≤ headerSize) ∧
      ((∃ z', loadHeader doubleBuild (.init [headerBuffer doubleBuild]) = .ok ((), z')) ↔
        doubleBuild = doubleBuild)) :=
  (header_never_complete doubleBuild doubleBuild _ [] (by decide)).1

/-- The header is written past its buffer, and a chunk with `double` numbers passes for one with
integer numbers. -/
theorem header_overflow_and_false_match :
    ¬ (header doubleBuild).length ≤ headerSize ∧
    ¬ ((∃ z', loadHeader integerBuild (.init [(dumpHeader doubleBuild).flatten]) = .ok ((), z')) ↔
        doubleBuild = integerBuild) := by
  refine ⟨by decide, ?_⟩
  have holds : (Zio.init [(dumpHeader doubleBuild).flatten]).content = headerBuffer doubleBuild ++ [] := by decide
  rw [loadHeader_accepts_iff holds]
  decide

end Gafq
