import Gafq.Base.Threads
import Gafq.Code.Expression

/-! # Walks along lists of jumps

The lists of jumps of `gcode.c` are threaded through the offset fields of the jumps themselves.  A walk
along a finite list comes to its end; it changes no other jump, and `patchlistaux` gives every jump of
its list the destination that its control asks for.
-/

namespace Gafq.Code

open Gafq.Base

variable {N : Type} {fs fs' : FuncState N} {i i' : Instruction}

/-! ## Instructions -/

/-- An instruction whose `sBx` is the offset of a pending jump. -/
def IsJump (i : Instruction) : Prop := opcode? i = some .jmp ∨ opcode? i = some .forprep ∨ opcode? i = some .forloop

/-- An instruction that the generator may change or leave alone, but does not remove. -/
def Free (i : Instruction) : Prop := ¬ IsJump i ∧ opcode? i ≠ some .not

/-- The two instructions are the same as far as jumps are concerned. -/
def SameJump (i i' : Instruction) : Prop :=
  opcode? i' = opcode? i ∧ getArgSBx i' = getArgSBx i ∨ Free i ∧ Free i'

namespace SameJump

theorem refl (i : Instruction) : SameJump i i := .inl ⟨rfl, rfl⟩

theorem trans {i'' : Instruction} (first : SameJump i i') (second : SameJump i' i'') : SameJump i i'' := by
  obtain ⟨same, offset⟩ | ⟨free, free'⟩ := first <;> obtain ⟨same', offset'⟩ | ⟨free'', free'''⟩ := second
  · exact .inl ⟨same'.trans same, offset'.trans offset⟩
  · refine .inr ⟨?_, free'''⟩
    simpa only [Free, IsJump, same] using free''
  · refine .inr ⟨free, ?_⟩
    simpa only [Free, IsJump, same'] using free'
  · exact .inr ⟨free, free'''⟩

theorem isJump (same : SameJump i i') : IsJump i' ↔ IsJump i := by
  obtain ⟨same, -⟩ | ⟨free, free'⟩ := same
  · simp only [IsJump, same]
  · exact ⟨fun jump => absurd jump free'.1, fun jump => absurd jump free.1⟩

theorem free (same : SameJump i i') : Free i' ↔ Free i := by
  obtain ⟨same, -⟩ | ⟨free, free'⟩ := same
  · simp only [Free, IsJump, same]
  · exact ⟨fun _ => free, fun _ => free'⟩

theorem of_isJump (same : SameJump i i') (jump : IsJump i) : opcode? i' = opcode? i ∧ getArgSBx i' = getArgSBx i :=
  same.resolve_right fun free => free.1.1 jump

theorem setArgA (i : Instruction) (u : Int) : SameJump i (setArgA i u) := .inl ⟨by simp, by simp⟩

end SameJump

theorem free_of_opcode {o : OpCode} (isOp : opcode? i = some o) (plain : o ∉ [OpCode.jmp, .forprep, .forloop, .not]) : Free i := by
  simp only [List.mem_cons, List.not_mem_nil, or_false, not_or] at plain
  simp [Free, IsJump, isOp, plain]

/-! ## Lists in the code -/

/-- The position that a jump leads to. -/
def jumpTarget (fs : FuncState N) (p : Nat) : Int := p + 1 + getArgSBx (fs.code p)

/-- The jumps of the list that begins at `list`. -/
abbrev IsList (fs : FuncState N) : Int → List Nat → Prop := Threaded noJump Nat.cast fun p : Nat => getjump fs p

/-- The jumps of several lists. -/
abbrev AreLists (fs : FuncState N) : Multiset Int → Multiset Nat → Prop := AllThreaded noJump Nat.cast fun p : Nat => getjump fs p

theorem cast_ne_noJump (p : Nat) : (p : Int) ≠ noJump := by simp only [noJump]; omega

theorem areLists_noJump {heads : Multiset Int} {cells : Multiset Nat} : AreLists fs (noJump ::ₘ heads) cells ↔ AreLists fs heads cells :=
  AllThreaded.cons_null_iff cast_ne_noJump

theorem getjump_congr {p : Nat} (same : getArgSBx (fs'.code p) = getArgSBx (fs.code p)) : getjump fs' p = getjump fs p := by
  simp only [getjump, Int.toNat_natCast, same]

/-- `fixjump` has written the offset to `dest` into the jump at `p`. -/
def fixed (fs : FuncState N) (p : Nat) (dest : Int) : FuncState N :=
  { fs with code := Function.update fs.code p (setArgSBx (fs.code p) (dest - (p + 1))) }

theorem fixjump_eq (fs : FuncState N) (p : Nat) (dest : Int) :
    fixjump (p : Int) dest fs =
      if (dest - (p + 1)).natAbs > maxArgSBx then .error (.syntaxerror (Lexer.bytes "control structure too long")) fs
      else .ok () (fixed fs p dest) := by
  simp only [fixjump, bind, EStateM.bind, get, getThe, MonadStateOf.get, EStateM.get]
  split
  · rfl
  · rfl

theorem jumpTarget_fixed {p : Nat} {dest : Int} (fits : (dest - (p + 1)).natAbs ≤ maxArgSBx) :
    jumpTarget (fixed fs p dest) p = dest := by
  simp only [jumpTarget, fixed, Function.update_self, getArgSBx_setArgSBx _ fits]
  omega

theorem getjump_fixed {p : Nat} {dest : Int} (fits : (dest - (p + 1)).natAbs ≤ maxArgSBx) (other : dest ≠ p) :
    getjump (fixed fs p dest) p = dest := by
  simp only [getjump, Int.toNat_natCast, fixed, Function.update_self, getArgSBx_setArgSBx _ fits]
  rw [if_neg (by simp only [noJump]; omega)]
  omega

/-- The same operation, or none that a list depends on. -/
def SameOp (i i' : Instruction) : Prop := opcode? i' = opcode? i ∨ Free i ∧ Free i'

theorem SameJump.sameOp (same : SameJump i i') : SameOp i i' := same.imp And.left id

namespace SameOp

theorem trans {i'' : Instruction} (first : SameOp i i') (second : SameOp i' i'') : SameOp i i'' := by
  obtain same | ⟨free, free'⟩ := first <;> obtain same' | ⟨free'', free'''⟩ := second
  · exact .inl (same'.trans same)
  · refine .inr ⟨?_, free'''⟩
    simpa only [Free, IsJump, same] using free''
  · refine .inr ⟨free, ?_⟩
    simpa only [Free, IsJump, same'] using free'
  · exact .inr ⟨free, free'''⟩

theorem isJump (same : SameOp i i') : IsJump i' ↔ IsJump i := by
  obtain same | ⟨free, free'⟩ := same
  · simp only [IsJump, same]
  · exact ⟨fun jump => absurd jump free'.1, fun jump => absurd jump free.1⟩

theorem free (same : SameOp i i') : Free i' ↔ Free i := by
  obtain same | ⟨free, free'⟩ := same
  · simp only [Free, IsJump, same]
  · exact ⟨fun _ => free, fun _ => free'⟩

theorem of_isJump (same : SameOp i i') (jump : IsJump i) : opcode? i' = opcode? i :=
  same.resolve_right fun free => free.1.1 jump

end SameOp

/-- The jumps at `ps` may have got another offset; every other instruction is the same as far as jumps
are concerned. -/
structure Rewired (ps : List Nat) (fs fs' : FuncState N) : Prop where
  frame : fs' = { fs with code := fs'.code }
  sameOp : ∀ p, SameOp (fs.code p) (fs'.code p)
  others : ∀ p ∉ ps, SameJump (fs.code p) (fs'.code p)

namespace Rewired

variable {ps qs : List Nat}

theorem refl (ps : List Nat) (fs : FuncState N) : Rewired ps fs fs := ⟨rfl, fun _ => .inl rfl, fun _ _ => .refl _⟩

theorem trans {fs'' : FuncState N} (first : Rewired ps fs fs') (second : Rewired ps fs' fs'') : Rewired ps fs fs'' := by
  refine ⟨?_, fun p => (first.sameOp p).trans (second.sameOp p), fun p other => (first.others p other).trans (second.others p other)⟩
  rw [second.frame, first.frame]

theorem weaken (rewired : Rewired ps fs fs') (more : ps ⊆ qs) : Rewired qs fs fs' :=
  ⟨rewired.frame, rewired.sameOp, fun p other => rewired.others p fun member => other (more member)⟩

theorem fixed (fs : FuncState N) (p : Nat) (dest : Int) : Rewired [p] fs (fixed fs p dest) := by
  refine ⟨rfl, fun q => .inl ?_, fun q other => ?_⟩
  · by_cases same : q = p
    · subst same
      simp [Code.fixed]
    · simp [Code.fixed, Function.update_of_ne same]
  · have same : (Code.fixed fs p dest).code q = fs.code q := Function.update_of_ne (by simpa using other) ..
    rw [same]
    exact .refl _

/-- An instruction that is the same as far as jumps are concerned is put in place of another one. -/
theorem setCode {p : Nat} {i : Instruction} (same : SameJump (fs.code p) i) :
    Rewired [] fs { fs with code := Function.update fs.code p i } := by
  have all : ∀ q, SameJump (fs.code q) (Function.update fs.code p i q) := by
    intro q
    by_cases here : q = p
    · subst here
      rwa [Function.update_self]
    · rw [Function.update_of_ne here]
      exact .refl _
  exact ⟨rfl, fun q => (all q).sameOp, fun q _ => all q⟩

/-- The lists without the jumps that have been changed are the same. -/
theorem isList {head : Int} {cells : List Nat} (rewired : Rewired ps fs fs') (list : IsList fs head cells)
    (jumps : ∀ p ∈ cells, IsJump (fs.code p)) (apart : ∀ p ∈ cells, p ∉ ps) : IsList fs' head cells :=
  list.congr fun p member => getjump_congr ((rewired.others p (apart p member)).of_isJump (jumps p member)).2

theorem areLists {heads : Multiset Int} {cells : Multiset Nat} (rewired : Rewired ps fs fs') (lists : AreLists fs heads cells)
    (jumps : ∀ p ∈ cells, IsJump (fs.code p)) (apart : ∀ p ∈ cells, p ∉ ps) : AreLists fs' heads cells :=
  lists.congr fun p member => getjump_congr ((rewired.others p (apart p member)).of_isJump (jumps p member)).2

end Rewired

/-! ## Walks -/

/-- The walk of `gafqK_concat` comes to the last jump of the list. -/
theorem lastjump_eq {front : List Nat} {last : Nat} {list : Int} {fuel : Nat} (isList : IsList fs list (front ++ [last]))
    (enough : front.length < fuel) : lastjump fs fuel list = some (last : Int) := by
  induction front generalizing list fuel with
  | nil =>
    cases fuel with
    | zero => omega
    | succ fuel =>
      cases isList with
      | cons rest =>
        have atEnd : getjump fs last = noJump := by
          generalize isNext : getjump fs last = next at rest
          cases rest
          rfl
        simp only [lastjump, atEnd, if_true]
  | cons p front inductionHypothesis =>
    cases fuel with
    | zero => omega
    | succ fuel =>
      cases isList with
      | cons rest =>
        have goesOn : getjump fs p ≠ noJump := by
          intro atEnd
          rw [atEnd] at rest
          simpa using rest.head_null cast_ne_noJump
        simp only [lastjump, if_neg goesOn]
        exact inductionHypothesis rest (by simp only [List.length_cons] at enough; omega)

/-- `gafqK_concat` joins two lists without a common jump. -/
theorem concat_joins {l1 l2 : Int} {cells1 cells2 : List Nat} (first : IsList fs l1 cells1) (second : IsList fs l2 cells2)
    (apart : (cells1 ++ cells2).Nodup) (short : cells1.length ≤ fs.pc) :
    (∃ l fs', concat l1 l2 fs = .ok l fs' ∧ IsList fs' l (cells1 ++ cells2) ∧ Rewired cells1 fs fs') ∨
    concat l1 l2 fs = .error (.syntaxerror (Lexer.bytes "control structure too long")) fs := by
  by_cases none2 : l2 = noJump
  · subst none2
    rw [second.head_null cast_ne_noJump, List.append_nil]
    exact .inl ⟨l1, fs, rfl, first, .refl _ _⟩
  by_cases none1 : l1 = noJump
  · subst none1
    rw [first.head_null cast_ne_noJump, List.nil_append]
    exact .inl ⟨l2, fs, by simp only [concat, if_neg none2, if_true]; rfl, second, .refl _ _⟩
  obtain ⟨front, last, rfl⟩ := first.exists_last none1
  have found : lastjump fs (listFuel fs) l1 = some (last : Int) :=
    lastjump_eq first (by simp only [listFuel, List.length_append, List.length_cons, List.length_nil] at short ⊢; omega)
  have ran : concat l1 l2 fs = (fixjump (last : Int) l2 >>= fun _ => pure l1) fs := by
    simp only [concat, if_neg none2, if_neg none1, bind, EStateM.bind, get, getThe, MonadStateOf.get, EStateM.get, found]
  rw [ran]
  show (∃ l fs', EStateM.bind _ _ fs = .ok l fs' ∧ _) ∨ EStateM.bind _ _ fs = _
  by_cases long : (l2 - (last + 1)).natAbs > maxArgSBx
  · refine .inr ?_
    simp only [EStateM.bind, fixjump_eq, if_pos long]
  · simp only [EStateM.bind, fixjump_eq, if_neg long]
    refine .inl ⟨l1, _, rfl, ?_, (Rewired.fixed fs last l2).weaken (by simp)⟩
    rw [List.append_assoc, List.singleton_append] at apart ⊢
    have distinct : ∀ q ∈ front ++ cells2, q ≠ last := by
      rintro q member rfl
      rw [List.nodup_middle, List.nodup_cons] at apart
      exact apart.1 member
    refine first.link second (getjump_fixed (by omega) ?_) fun q member => getjump_congr ?_
    · rintro rfl
      obtain ⟨rest, rfl, -⟩ := second.of_ptr Nat.cast_injective cast_ne_noJump
      exact distinct last (by simp) rfl
    · simp only [Code.fixed, Function.update_of_ne (distinct q member)]

/-! ## Walks that patch -/

/-- Where `patchlistaux` lets the jump at `p` lead. -/
def destination (fs : FuncState N) (vtarget dtarget : Int) (p : Nat) : Int :=
  if opcode? (fs.code (getjumpcontrol fs p)) = some .testset then vtarget else dtarget

theorem getjumpcontrol_or (fs : FuncState N) (p : Nat) :
    getjumpcontrol fs p = p ∨ getjumpcontrol fs p + 1 = p ∧ testTMode (fs.code (p - 1)) = true := by
  unfold getjumpcontrol
  simp only [Int.toNat_natCast]
  split
  · next before => exact .inr ⟨by omega, before.2⟩
  · exact .inl rfl

/-- The destination of a jump depends on the operations of the jump and of the instruction before it. -/
theorem destination_congr {vtarget dtarget : Int} {p : Nat}
    (same : ∀ q, q = p ∨ q + 1 = p → opcode? (fs'.code q) = opcode? (fs.code q)) :
    destination fs' vtarget dtarget p = destination fs vtarget dtarget p := by
  have control : getjumpcontrol fs' p = getjumpcontrol fs p := by
    unfold getjumpcontrol
    simp only [Int.toNat_natCast]
    by_cases first : p = 0
    · subst first
      simp
    · rw [testTMode, testTMode, same (p - 1) (.inr (by omega))]
  rw [destination, destination, control, same]
  obtain here | ⟨before, -⟩ := getjumpcontrol_or fs p
  · exact .inl here
  · exact .inr before

/-- `patchtestreg` changes at most a `TESTSET` before the jump. -/
theorem patchtestreg_runs (fs : FuncState N) (p : Nat) (reg : Int) :
    ∃ i, SameJump (fs.code (getjumpcontrol fs p)) i ∧
      (opcode? (fs.code (getjumpcontrol fs p)) ≠ some .testset → i = fs.code (getjumpcontrol fs p)) ∧
      patchtestreg p reg fs = .ok (decide (opcode? (fs.code (getjumpcontrol fs p)) = some .testset))
        { fs with code := Function.update fs.code (getjumpcontrol fs p) i } := by
  by_cases testset : opcode? (fs.code (getjumpcontrol fs p)) = some .testset
  · have free : Free (fs.code (getjumpcontrol fs p)) := free_of_opcode testset (by decide)
    by_cases otherReg : reg ≠ noReg ∧ reg ≠ getArgB (fs.code (getjumpcontrol fs p))
    · refine ⟨setArgA (fs.code (getjumpcontrol fs p)) reg, .setArgA _ _, absurd testset, ?_⟩
      simp only [patchtestreg, bind, EStateM.bind, get, getThe, MonadStateOf.get, EStateM.get, testset, ne_eq, not_true_eq_false,
        if_false, if_pos otherReg, setCode, decide_true]
      rfl
    · refine ⟨instrABC .test (getArgB (fs.code (getjumpcontrol fs p))) 0 (getArgC (fs.code (getjumpcontrol fs p))),
        .inr ⟨free, free_of_opcode (opcode?_instrABC ..) (by decide)⟩, absurd testset, ?_⟩
      simp only [patchtestreg, bind, EStateM.bind, get, getThe, MonadStateOf.get, EStateM.get, testset, ne_eq, not_true_eq_false,
        if_false, if_neg otherReg, setCode, decide_true]
      rfl
  · refine ⟨_, .refl _, fun _ => rfl, ?_⟩
    simp only [patchtestreg, bind, EStateM.bind, get, getThe, MonadStateOf.get, EStateM.get, ne_eq, testset, not_false_eq_true,
      if_true, Function.update_eq_self, decide_false]
    rfl

/-- `patchlistaux` gives every jump of its list its destination. -/
theorem patchlistauxLoop_patches {list vtarget reg dtarget : Int} {cells : List Nat} {fuel : Nat}
    (isList : IsList fs list cells) (nodup : cells.Nodup) (jumps : ∀ p ∈ cells, IsJump (fs.code p))
    (enough : cells.length < fuel) :
    (∃ fs', patchlistauxLoop vtarget reg dtarget fuel list fs = .ok () fs' ∧ Rewired cells fs fs' ∧
      ∀ p ∈ cells, jumpTarget fs' p = destination fs vtarget dtarget p) ∨
    ∃ fs', patchlistauxLoop vtarget reg dtarget fuel list fs =
      .error (.syntaxerror (Lexer.bytes "control structure too long")) fs' := by
  induction cells generalizing fs list fuel with
  | nil =>
    cases fuel with
    | zero => omega
    | succ fuel =>
      cases isList
      exact .inl ⟨fs, rfl, .refl _ _, by simp⟩
  | cons p cells inductionHypothesis =>
    cases fuel with
    | zero => omega
    | succ fuel =>
      cases isList with
      | cons rest =>
        obtain ⟨i, same, unchanged, tested⟩ := patchtestreg_runs fs p reg
        generalize isControl : getjumpcontrol fs p = control at same unchanged tested
        generalize isTest : opcode? (fs.code control) = operation at unchanged tested
        have dest : destination fs vtarget dtarget p = if operation = some .testset then vtarget else dtarget := by
          rw [destination, isControl, isTest]
        have first := Rewired.setCode same
        have kept : ∀ r, r ≠ control ∨ operation ≠ some .testset →
            Function.update fs.code control i r = fs.code r := by
          intro r apart
          by_cases here : r = control
          · rw [here, Function.update_self, unchanged (apart.resolve_left (not_not.2 here))]
          · exact Function.update_of_ne here ..
        generalize isFirst : ({ fs with code := Function.update fs.code control i } : FuncState N) = fs₁ at first tested
        replace kept : ∀ r, r ≠ control ∨ operation ≠ some .testset → fs₁.code r = fs.code r := isFirst ▸ kept
        have ran : patchlistauxLoop vtarget reg dtarget (fuel + 1) p fs =
            (fixjump p (destination fs vtarget dtarget p) >>= fun _ =>
              patchlistauxLoop vtarget reg dtarget fuel (getjump fs p)) fs₁ := by
          rw [patchlistauxLoop, if_neg (cast_ne_noJump p), dest]
          simp only [bind, EStateM.bind, get, getThe, MonadStateOf.get, EStateM.get, tested, decide_eq_true_eq]
          split <;> rfl
        rw [ran]
        show (∃ fs', EStateM.bind _ _ fs₁ = .ok () fs' ∧ _) ∨ ∃ fs', EStateM.bind _ _ fs₁ = _
        by_cases long : (destination fs vtarget dtarget p - (p + 1)).natAbs > maxArgSBx
        · simp only [EStateM.bind, fixjump_eq, if_pos long]
          exact .inr ⟨fs₁, rfl⟩
        simp only [EStateM.bind, fixjump_eq, if_neg long]
        have second := (first.weaken (List.nil_subset [p])).trans (Rewired.fixed fs₁ p (destination fs vtarget dtarget p))
        have jumpTarget₂ : jumpTarget (fixed fs₁ p (destination fs vtarget dtarget p)) p = destination fs vtarget dtarget p := jumpTarget_fixed (by omega)
        have opcodes₂ : ∀ r, opcode? ((fixed fs₁ p (destination fs vtarget dtarget p)).code r) = opcode? (fs₁.code r) := by
          intro r
          by_cases here : r = p
          · rw [here]
            simp [fixed]
          · exact congrArg opcode? (Function.update_of_ne here ..)
        generalize fixed fs₁ p (destination fs vtarget dtarget p) = fs₂ at second jumpTarget₂ opcodes₂
        obtain ⟨notIn, nodup⟩ := List.nodup_cons.1 nodup
        obtain ⟨fs', ran', rewired, targets⟩ | failed := @inductionHypothesis fs₂ (getjump fs p) fuel
          (second.isList rest (fun q member => jumps q (List.mem_cons_of_mem _ member))
            (by rintro q member; rw [List.mem_singleton]; rintro rfl; exact notIn member)) nodup
          (fun q member => (second.sameOp q).isJump.2 (jumps q (List.mem_cons_of_mem _ member)))
          (by simp only [List.length_cons] at enough; omega)
        · refine .inl ⟨fs', ran', (second.weaken (by simp)).trans (rewired.weaken (List.subset_cons_self ..)), ?_⟩
          intro q member
          obtain rfl | member := List.mem_cons.1 member
          · rw [← jumpTarget₂, jumpTarget, jumpTarget]
            have kept := (rewired.others q notIn).of_isJump ((second.sameOp q).isJump.2 (jumps q List.mem_cons_self))
            rw [kept.2]
          · rw [targets q member]
            refine destination_congr fun r near => ?_
            rw [opcodes₂, kept r]
            by_contra both
            simp only [not_or, not_not] at both
            obtain ⟨rfl, isTestset⟩ := both
            rw [isTestset] at isTest
            -- a jump is no `TESTSET`, and the one before another jump does not control this one
            have notJump : ¬ IsJump (fs.code r) := (free_of_opcode isTest (by decide)).1
            obtain here | ⟨before, -⟩ := getjumpcontrol_or fs p
            · rw [isControl] at here
              exact notJump (here ▸ jumps p List.mem_cons_self)
            · obtain rfl | near := near
              · exact notJump (jumps r (List.mem_cons_of_mem _ member))
              · rw [isControl] at before
                exact notIn (before.symm.trans near ▸ member)
        · exact .inr failed

/-- The walk of `need_value` ends. -/
theorem needValue_ends {list : Int} {cells : List Nat} {fuel : Nat} (isList : IsList fs list cells)
    (enough : cells.length < fuel) : ∃ b, needValue fs fuel list = some b := by
  induction isList generalizing fuel with
  | nil =>
    cases fuel with
    | zero => omega
    | succ fuel => exact ⟨false, rfl⟩
  | @cons p cells _ inductionHypothesis =>
    cases fuel with
    | zero => omega
    | succ fuel =>
      rw [needValue, if_neg (cast_ne_noJump p)]
      split
      · exact ⟨true, rfl⟩
      · exact inductionHypothesis (by simp only [List.length_cons] at enough; omega)

/-- `removevalues` walks to the end of its list and changes no jump. -/
theorem removevaluesLoop_runs {list : Int} {cells : List Nat} {fuel : Nat} (isList : IsList fs list cells)
    (jumps : ∀ p ∈ cells, IsJump (fs.code p)) (enough : cells.length < fuel) :
    ∃ fs', removevaluesLoop fuel list fs = .ok () fs' ∧ Rewired [] fs fs' := by
  induction cells generalizing fs list fuel with
  | nil =>
    cases fuel with
    | zero => omega
    | succ fuel =>
      cases isList
      exact ⟨fs, rfl, .refl _ _⟩
  | cons p cells inductionHypothesis =>
    cases fuel with
    | zero => omega
    | succ fuel =>
      cases isList with
      | cons rest =>
        obtain ⟨i, same, -, tested⟩ := patchtestreg_runs fs p noReg
        have first := Rewired.setCode same
        generalize ({ fs with code := Function.update fs.code (getjumpcontrol fs p) i } : FuncState N) = fs₁ at first tested
        have next : getjump fs₁ p = getjump fs p :=
          getjump_congr ((first.others p List.not_mem_nil).of_isJump (jumps p List.mem_cons_self)).2
        have jumps' : ∀ q ∈ cells, IsJump (fs.code q) := fun q member => jumps q (List.mem_cons_of_mem _ member)
        obtain ⟨fs', ran, rewired⟩ := @inductionHypothesis fs₁ (getjump fs p) fuel
          (first.isList rest jumps' fun _ _ => List.not_mem_nil)
          (fun q member => (first.sameOp q).isJump.2 (jumps' q member))
          (by simp only [List.length_cons] at enough; omega)
        refine ⟨fs', ?_, first.trans rewired⟩
        rw [← ran, ← next, removevaluesLoop, if_neg (cast_ne_noJump p)]
        simp only [bind, EStateM.bind, get, getThe, MonadStateOf.get, EStateM.get, tested]

/-! ## Pending jumps -/

theorem length_le_of_nodup {cells : List Nat} {n : Nat} (nodup : cells.Nodup) (below : ∀ p ∈ cells, p < n) : cells.length ≤ n := by
  have inside : cells ⊆ List.range n := fun p member => List.mem_range.2 (below p member)
  simpa using (nodup.subperm inside).length_le

/-- What the walks of `gcode.c` need of the jumps of a list. -/
structure Walkable (fs : FuncState N) (cells : Multiset Nat) : Prop where
  nodup : cells.Nodup
  jumps : ∀ p ∈ cells, p < fs.pc ∧ IsJump (fs.code p)

namespace Walkable

variable {cells rest : Multiset Nat} {list : List Nat}

theorem mono (walkable : Walkable fs cells) (less : rest ≤ cells) : Walkable fs rest :=
  ⟨Multiset.nodup_of_le less walkable.nodup, fun p member => walkable.jumps p (Multiset.mem_of_le less member)⟩

theorem length_le (walkable : Walkable fs ↑list) : list.length ≤ fs.pc :=
  length_le_of_nodup (Multiset.coe_nodup.1 walkable.nodup) fun p member => (walkable.jumps p (Multiset.mem_coe.2 member)).1

end Walkable

theorem Rewired.pc {ps : List Nat} (rewired : Rewired ps fs fs') : fs'.pc = fs.pc := by rw [rewired.frame]

theorem Rewired.jpc {ps : List Nat} (rewired : Rewired ps fs fs') : fs'.jpc = fs.jpc := by rw [rewired.frame]

theorem Rewired.bl {ps : List Nat} (rewired : Rewired ps fs fs') : fs'.bl = fs.bl := by rw [rewired.frame]

theorem disjoint_of_nodup {a b : Multiset Nat} (nodup : (a + b).Nodup) {p : Nat} (inA : p ∈ a) (inB : p ∈ b) : False :=
  Multiset.disjoint_left.1 (Multiset.nodup_add.1 nodup).2.2 inA inB

/-- Joining a list to the one that begins at `list`. -/
theorem concat_appends {l1 l2 l : Int} {here : List Nat} {heads : Multiset Int} {held : Multiset Nat} (first : IsList fs l1 here)
    (lists : AreLists fs (l2 ::ₘ heads) held) (walkable : Walkable fs (↑here + held)) (ran : concat l1 l2 fs = .ok l fs') :
    ∃ (cells : List Nat) (rest : Multiset Nat), held = ↑cells + rest ∧ IsList fs' l (here ++ cells) ∧ AreLists fs' heads rest ∧
      Rewired here fs fs' := by
  obtain ⟨cells, rest, second, others, rfl⟩ := lists.of_cons
  have both : Walkable fs ↑(here ++ cells) := by
    rw [← add_assoc, Multiset.coe_add] at walkable
    exact walkable.mono (Multiset.le_add_right _ _)
  have short : here.length ≤ fs.pc := by
    have := both.length_le
    simp only [List.length_append] at this
    omega
  obtain ⟨_, _, ran', joined, rewired⟩ | failed := concat_joins first second (Multiset.coe_nodup.1 both.nodup) short
  · rw [ran] at ran'
    cases ran'
    refine ⟨cells, rest, rfl, joined, ?_, rewired⟩
    refine rewired.areLists others (fun p member => (walkable.jumps p (by simp [member])).2) fun p member inHere => ?_
    exact disjoint_of_nodup walkable.nodup (p := p) (Multiset.mem_coe.2 inHere) (by simp [member])
  · rw [ran] at failed
    cases failed

/-- Joining two of several lists. -/
theorem concat_merges {l1 l2 l : Int} {heads : Multiset Int} {held : Multiset Nat} (lists : AreLists fs (l1 ::ₘ l2 ::ₘ heads) held)
    (walkable : Walkable fs held) (ran : concat l1 l2 fs = .ok l fs') :
    AreLists fs' (l ::ₘ heads) held ∧ ∃ ps : List Nat, ↑ps ≤ held ∧ Rewired ps fs fs' := by
  obtain ⟨here, rest, first, others, rfl⟩ := lists.of_cons
  obtain ⟨cells, rest, rfl, joined, others, rewired⟩ := concat_appends first others walkable ran
  refine ⟨?_, here, Multiset.le_add_right _ _, rewired⟩
  rw [← add_assoc, Multiset.coe_add]
  exact AllThreaded.cons joined others

/-- Patching one of several lists. -/
theorem patchlistaux_patches {l vtarget reg dtarget : Int} {heads : Multiset Int} {held : Multiset Nat} {cells : List Nat}
    (lists : AreLists fs (l ::ₘ heads) held) (list : IsList fs l cells) (walkable : Walkable fs held)
    (ran : patchlistaux l vtarget reg dtarget fs = .ok () fs') :
    ∃ rest, held = ↑cells + rest ∧ AreLists fs' heads rest ∧ Rewired cells fs fs' ∧
      ∀ p ∈ cells, jumpTarget fs' p = destination fs vtarget dtarget p := by
  obtain ⟨cells', rest, list', others, rfl⟩ := lists.of_cons
  cases list.unique list' Nat.cast_injective cast_ne_noJump
  have walkable' := walkable.mono (Multiset.le_add_right ↑cells rest)
  obtain ⟨_, ran', rewired, targets⟩ | ⟨_, failed⟩ := @patchlistauxLoop_patches N fs l vtarget reg dtarget cells (listFuel fs)
    list (Multiset.coe_nodup.1 walkable'.nodup) (fun p member => (walkable'.jumps p (Multiset.mem_coe.2 member)).2)
    (Nat.lt_succ_of_le walkable'.length_le)
  · have same : (patchlistaux l vtarget reg dtarget fs : EStateM.Result _ _ _) = _ := ran'
    rw [ran] at same
    cases same
    refine ⟨rest, rfl, ?_, rewired, targets⟩
    refine rewired.areLists others (fun p member => (walkable.jumps p (by simp [member])).2) fun p member inCells => ?_
    exact disjoint_of_nodup walkable.nodup (p := p) (Multiset.mem_coe.2 inCells) member
  · have same : (patchlistaux l vtarget reg dtarget fs : EStateM.Result _ _ _) = _ := failed
    rw [ran] at same
    cases same

/-- A block's list is replaced. -/
theorem breaklists_modify {bl : List BlockCnt} {n : Nat} {b : BlockCnt} (isBlock : bl[n]? = some b) :
    ∃ heads : Multiset Int, ↑(bl.map BlockCnt.breaklist) = b.breaklist ::ₘ heads ∧
      ∀ l, ↑((bl.modify n fun b => { b with breaklist := l }).map BlockCnt.breaklist) = l ::ₘ heads := by
  induction bl generalizing n with
  | nil => simp at isBlock
  | cons b' bl inductionHypothesis =>
    cases n with
    | zero =>
      cases Option.some.inj isBlock
      exact ⟨bl.map BlockCnt.breaklist, rfl, fun l => rfl⟩
    | succ n =>
      obtain ⟨heads, before, after⟩ := inductionHypothesis isBlock
      refine ⟨b'.breaklist ::ₘ heads, ?_, fun l => ?_⟩
      · rw [List.map_cons, ← Multiset.cons_coe, before, Multiset.cons_swap]
      · rw [List.modify_succ_cons, List.map_cons, ← Multiset.cons_coe, after, Multiset.cons_swap]

/-! ## New jumps -/

theorem getArgBx_instrABx (o : OpCode) {a bc : Nat} (smallA : a < 256) (smallBx : bc < 2 ^ 18) : getArgBx (instrABx o a bc) = bc := by
  rw [getArgBx, instrABx, createABx, getField_ofNat _ _ _ (by decide), castInstruction_natCast (by omega),
    castInstruction_natCast (by omega)]
  apply Nat.eq_of_testBit_eq
  intro j
  simp only [posOp, posA, posBx, posC, sizeOp, sizeA, sizeBx, sizeB, sizeC, Nat.testBit_mod_two_pow, Nat.testBit_shiftRight,
    Nat.testBit_or, Nat.testBit_shiftLeft]
  by_cases low : j < 18
  · simp [low, testBit_of_lt (toNat_lt o) (show 6 ≤ 14 + j by omega), testBit_of_lt (k := 8) smallA (show 8 ≤ 14 + j - 6 by omega)]
  · simp [low, testBit_of_lt (k := 18) smallBx (Nat.le_of_not_lt low)]

/-- A new jump is a list of its own. -/
theorem getArgSBx_instrABx (o : OpCode) {a : Nat} (small : a < 256) :
    getArgSBx (instrABx o a (noJump + maxArgSBx)) = noJump := by
  have bound : (noJump + maxArgSBx : Int) = (131070 : Nat) := by decide
  rw [getArgSBx, bound, getArgBx_instrABx o small (by decide)]
  decide

end Gafq.Code
