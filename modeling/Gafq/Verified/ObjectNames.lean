import Gafq.ObjectName
import Gafq.Verified.Compiler.TokenLines

/-! # When an error message names the right value

`symbexec` goes through the code once and follows every forward jump that it meets.  A run takes other ways.
What `getobjname` finds is the last instruction that sets the register and is not jumped over; the name is that
of the value when the run has set the register last with an instruction of the same name.
-/

namespace Gafq

variable {pt : Proto} {lastpc r pc q last x fuel : Nat} {N : Type}

/-! ## Instructions in sight -/

/-- The instruction has the register as its target, or as one of its targets. -/
def Targets (i : Instruction) (r : Nat) : Prop :=
  match opcode? i with
  | none => False
  | some op =>
    (opmodes op).setsA = true ∧ getArgA i = r ∨
      match op with
      | .loadnil => getArgA i ≤ r ∧ r ≤ getArgB i
      | .self => r = getArgA i + 1
      | .tforloop => getArgA i + 2 ≤ r
      | .call | .tailcall => getArgA i ≤ r
      | _ => False

/-- Where an instruction jumps to, not counting jumps that lead behind `lastpc`; the words that belong to `OP_SETLIST` and
`OP_CLOSURE` are jumped over too. -/
def landing (pt : Proto) (lastpc pc : Nat) : Nat :=
  let i := pt.instr pc
  match opcode? i with
  | some .forloop | some .forprep | some .jmp =>
    let dest := pc + 1 + getArgSBx i
    if dest ≤ lastpc then dest.toNat else pc + 1
  | some .setlist => if getArgC i = 0 then pc + 2 else pc + 1
  | some .closure => pc + 1 + pt.nestedNups (getArgBx i)
  | _ => pc + 1

/-- A jump passes over the position, one that is not passed over itself. -/
def PassedOver (pt : Proto) (lastpc pc : Nat) : Prop := ∃ jump : Fin pc, pc < landing pt lastpc jump ∧ ¬ PassedOver pt lastpc jump
termination_by pc
decreasing_by exact jump.isLt

/-- The last instruction before `lastpc` that has the register as a target and is not passed over. -/
structure InSight (pt : Proto) (lastpc r pc : Nat) : Prop where
  before : pc < lastpc
  targets : Targets (pt.instr pc) r
  clear : ¬ PassedOver pt lastpc pc
  last : ∀ q, pc < q → q < lastpc → Targets (pt.instr q) r → PassedOver pt lastpc q

/-- The instruction in sight that sets the register, or the one from which it has been copied. -/
inductive Origin (pt : Proto) (lastpc : Nat) : Nat → Nat → Prop
  | target {r pc : Nat} (inSight : InSight pt lastpc r pc) (notCopy : opcode? (pt.instr pc) ≠ some .move) : Origin pt lastpc r pc
  | copy {r pc q : Nat} (inSight : InSight pt lastpc r pc) (copies : opcode? (pt.instr pc) = some .move)
      (origin : Origin pt lastpc (getArgB (pt.instr pc)) q) : Origin pt lastpc r q

theorem InSight.unique {pc' : Nat} (inSight : InSight pt lastpc r pc) (inSight' : InSight pt lastpc r pc') : pc = pc' := by
  rcases Nat.lt_trichotomy pc pc' with before | same | after
  · exact absurd (inSight.last pc' before inSight'.before inSight'.targets) inSight'.clear
  · exact same
  · exact absurd (inSight'.last pc after inSight.before inSight.targets) inSight.clear

theorem Origin.unique {q' : Nat} (origin : Origin pt lastpc r q) (origin' : Origin pt lastpc r q') : q = q' := by
  induction origin with
  | target inSight notCopy =>
    cases origin' with
    | target inSight' => exact inSight.unique inSight'
    | copy inSight' copies => exact absurd (inSight.unique inSight' ▸ copies) notCopy
  | copy inSight copies _ inductionHypothesis =>
    cases origin' with
    | target inSight' notCopy => exact absurd (inSight.unique inSight' ▸ copies) notCopy
    | copy inSight' _ origin' => exact inductionHypothesis (inSight.unique inSight' ▸ origin')

/-! ## The scan -/

theorem stepLast_cases (pt : Proto) (r pc last : Nat) :
    Targets (pt.instr pc) r ∧ stepLast pt r pc last = pc ∨ ¬ Targets (pt.instr pc) r ∧ stepLast pt r pc last = last := by
  simp only [stepLast, Targets]
  cases opcode? (pt.instr pc) with
  | none => simp
  | some op =>
    -- the four instructions with other targets than `A`
    cases op with
    | loadnil | self | tforloop | call | tailcall =>
      simp only [operandB, opmodes, beq_iff_eq, Bool.and_eq_true, true_and, false_and, Bool.false_eq_true, false_or, Nat.cast_le]
      grind
    | _ =>
      simp only [opmodes, beq_iff_eq, Bool.and_eq_true, true_and, false_and, Bool.false_eq_true, or_false, if_false, not_false_eq_true, and_self, or_true]
      try grind

theorem stepPc_eq (real : r ≠ noReg) (pc : Nat) : stepPc pt lastpc r pc + 1 = max (pc + 1) (landing pt lastpc pc) := by
  simp only [stepPc, landing]
  cases opcode? (pt.instr pc) with
  | none => simp
  | some op =>
    cases op with
    | forloop | forprep | jmp =>
      simp only [real, ne_eq, not_false_eq_true, true_and]
      split <;> split <;> omega
    | setlist =>
      simp only
      split <;> omega
    | closure =>
      simp only [real, ne_eq, not_false_eq_true, if_true]
      omega
    | _ => simp

def scanNext (pt : Proto) (lastpc pc : Nat) : Nat := max (pc + 1) (landing pt lastpc pc)

/-- The position of the scan after `n` instructions. -/
def scanAt (pt : Proto) (lastpc n : Nat) : Nat := (scanNext pt lastpc)^[n] 0

theorem scanAt_succ (pt : Proto) (lastpc n : Nat) : scanAt pt lastpc (n + 1) = scanNext pt lastpc (scanAt pt lastpc n) :=
  Function.iterate_succ_apply' ..

theorem scanAt_strictMono (pt : Proto) (lastpc : Nat) : StrictMono (scanAt pt lastpc) := by
  refine strictMono_nat_of_lt_succ fun n => ?_
  rw [scanAt_succ]
  exact Nat.le_max_left ..

/-- The scan comes by unless a jump that it follows passes over the position. -/
theorem passedOver_iff : PassedOver pt lastpc pc ↔ ∀ n, scanAt pt lastpc n ≠ pc := by
  have mono := scanAt_strictMono pt lastpc
  induction pc using Nat.strongRecOn with
  | ind pc inductionHypothesis =>
    rw [PassedOver]
    constructor
    · rintro ⟨⟨jump, below⟩, passes, clear⟩ n rfl
      obtain ⟨m, rfl⟩ := not_forall_not.mp fun never => clear ((inductionHypothesis jump below).mpr never)
      have later : scanAt pt lastpc (m + 1) ≤ scanAt pt lastpc n := mono.monotone (mono.lt_iff_lt.mp below)
      rw [scanAt_succ] at later
      exact absurd (lt_of_lt_of_le passes (Nat.le_max_right ..)) (not_lt.mpr later)
    · intro never
      have passes : ∃ n, pc < scanAt pt lastpc n := ⟨pc + 1, mono.le_apply⟩
      -- the jump is where the scan is just before
      obtain ⟨n, before, behind⟩ : ∃ n, scanAt pt lastpc n ≤ pc ∧ pc < scanAt pt lastpc (n + 1) := by
        cases first : Nat.find passes with
        | zero =>
          have atStart := Nat.find_spec passes
          rw [first] at atStart
          exact absurd atStart (Nat.not_lt_zero pc)
        | succ n =>
          refine ⟨n, not_lt.mp (Nat.find_min passes (by omega)), ?_⟩
          rw [← first]
          exact Nat.find_spec passes
      have below : scanAt pt lastpc n < pc := lt_of_le_of_ne before (never n)
      refine ⟨⟨scanAt pt lastpc n, below⟩, ?_, fun passed => (inductionHypothesis _ below).mp passed n rfl⟩
      rw [scanAt_succ] at behind
      exact (lt_max_iff.mp behind).resolve_left (not_lt.mpr below)

theorem symbexecLoop_cases (real : r ≠ noReg) (fuel n last : Nat) (enough : lastpc ≤ scanAt pt lastpc n + fuel)
    (ran : symbexecLoop pt lastpc r fuel (scanAt pt lastpc n) last = some x) :
    (∃ m, n ≤ m ∧ scanAt pt lastpc m = x ∧ x < lastpc ∧ Targets (pt.instr x) r ∧
      ∀ k, m < k → scanAt pt lastpc k < lastpc → ¬ Targets (pt.instr (scanAt pt lastpc k)) r) ∨
    x = last ∧ ∀ k, n ≤ k → scanAt pt lastpc k < lastpc → ¬ Targets (pt.instr (scanAt pt lastpc k)) r := by
  have mono := scanAt_strictMono pt lastpc
  have ended (atEnd : lastpc ≤ scanAt pt lastpc n) (k : Nat) (later : n ≤ k) (inside : scanAt pt lastpc k < lastpc) :
      ¬ Targets (pt.instr (scanAt pt lastpc k)) r := by
    have forward := mono.monotone later
    omega
  induction fuel generalizing n last with
  | zero => exact .inr ⟨(Option.some.inj ran).symm, ended enough⟩
  | succ fuel inductionHypothesis =>
    rw [symbexecLoop] at ran
    split at ran
    · next inside =>
      split at ran
      · have forward : scanAt pt lastpc n < scanAt pt lastpc (n + 1) := mono (Nat.lt_succ_self n)
        rw [stepPc_eq real, ← scanNext, ← scanAt_succ] at ran
        obtain ⟨m, later, found⟩ | ⟨same, none⟩ := inductionHypothesis (n + 1) _ (by omega) ran fun atEnd k later inside => by
          have forward := mono.monotone later
          omega
        · exact .inl ⟨m, by omega, found⟩
        · obtain ⟨targets, step⟩ | ⟨other, step⟩ := stepLast_cases pt r (scanAt pt lastpc n) last
          · rw [step] at same
            exact .inl ⟨n, le_rfl, same.symm, same ▸ inside, same ▸ targets, fun k later => none k later⟩
          · refine .inr ⟨same.trans step, fun k later inside => ?_⟩
            obtain rfl | later := Nat.eq_or_lt_of_le later
            · exact other
            · exact none k later inside
      · cases ran
    · next outside => exact .inr ⟨(Option.some.inj ran).symm, ended (by omega)⟩

/-- `symbexec` answers the instruction in sight, or one that has no name. -/
theorem symbexec_cases (pt : Proto) (lastpc : Nat) (real : r ≠ noReg) :
    (∃ x, InSight pt lastpc r x ∧ symbexec pt lastpc r = pt.instr x) ∨ symbexec pt lastpc r = 0 ∨
      opcode? (symbexec pt lastpc r) = some .return := by
  have mono := scanAt_strictMono pt lastpc
  rw [symbexec]
  split
  · next checked =>
    have final : opcode? (pt.instr (pt.sizecode - 1)) = some .return := by
      simp only [precheck, Bool.and_eq_true, hasOpcode, beq_iff_eq] at checked
      exact checked.2.2
    cases ran : symbexecLoop pt lastpc r lastpc 0 (pt.sizecode - 1) with
    | none => exact .inr (.inl rfl)
    | some x =>
      obtain ⟨m, -, rfl, before, targets, last⟩ | ⟨rfl, -⟩ := symbexecLoop_cases real lastpc 0 _ (Nat.le_add_left ..) ran
      · refine .inl ⟨_, ⟨before, targets, fun passed => passedOver_iff.mp passed m rfl, fun q after inside setsToo => ?_⟩, rfl⟩
        refine passedOver_iff.mpr fun k isHere => ?_
        subst isHere
        exact last k (mono.lt_iff_lt.mp after) inside setsToo
      · exact .inr (.inr final)
  · exact .inr (.inl rfl)

/-- The name that `getobjname` finds is that of the instruction in sight. -/
theorem getobjname_origin {kind : NameKind} {name : TString} (real : r < noReg) (named : getobjnameFrom pt pc fuel r = some (kind, name))
    (notLocal : kind ≠ .localVar) : ∃ q, Origin pt pc r q ∧ nameAt pt (pt.instr q) = some (kind, name) := by
  induction fuel generalizing r with
  | zero => cases named
  | succ fuel inductionHypothesis =>
    rw [getobjnameFrom] at named
    split at named
    · cases named
      exact absurd rfl notLocal
    · obtain ⟨x, inSight, same⟩ | nothing | final := symbexec_cases pt pc (Nat.ne_of_lt real)
      · rw [same] at named
        simp only at named
        split at named
        · next copies =>
          split at named
          · next lower =>
            have target : getArgA (pt.instr x) = r := by
              simpa [Targets, copies, opmodes] using inSight.targets
            obtain ⟨q, origin, isNamed⟩ := inductionHypothesis (by omega) named
            exact ⟨q, .copy inSight copies origin, isNamed⟩
          · cases named
        · next notCopy => exact ⟨x, .target inSight notCopy, named⟩
      · rw [nothing] at named
        have isMove : opcode? (0 : Instruction) = some .move := by decide
        have noRegister : ¬ getArgB (0 : Instruction) < getArgA 0 := by decide
        simp only [isMove, if_true, if_neg noRegister] at named
        cases named
      · simp [final, nameAt] at named

/-! ## Runs -/

/-- A part of a run leaves the registers alone that it does not write. -/
theorem ActivationRun.split {l₁ l₂ : List (Executed N)} {s : RegisterState N} (run : ActivationRun pt (l₁ ++ l₂) s) :
    ∃ s₁, ActivationRun pt l₁ s₁ ∧ ∀ r, (∀ y ∈ l₂, ¬ y.written r) → s.reg r = s₁.reg r := by
  generalize same : l₁ ++ l₂ = l at run
  induction run generalizing l₂ with
  | enter reg =>
    obtain ⟨rfl, rfl⟩ := List.append_eq_nil_iff.mp same
    exact ⟨_, .enter reg, fun _ _ => rfl⟩
  | @execute steps s s' taken written run executes inductionHypothesis =>
    obtain rfl | ⟨l₂, y, rfl⟩ := List.eq_nil_or_concat' l₂
    · rw [List.append_nil] at same
      subst same
      exact ⟨s', run.execute executes, fun _ _ => rfl⟩
    · rw [← List.append_assoc] at same
      obtain ⟨rfl, last⟩ := List.append_inj' same rfl
      obtain rfl := (List.cons.inj last).1
      obtain ⟨s₁, run₁, kept⟩ := inductionHypothesis rfl
      refine ⟨s₁, run₁, fun r unwritten => ?_⟩
      rw [executes.frame r (unwritten ⟨s, written⟩ (by simp)), kept r fun y inside => unwritten y (by simp [inside])]

/-- The value of the register was put there by an instruction of the run that refers to the name, and it was not
overwritten since; `reg` are the registers at the time of the error. -/
def PutThere (pt : Proto) (steps : List (Executed N)) (s : RegisterState N) (reg : Nat → TValue N) (r : Nat) (kind : NameKind)
    (name : TString) : Prop :=
  ∃ before x after s₁, steps = before ++ x :: after ∧ nameAt pt (pt.instr x.state.pc) = some (kind, name) ∧
    (∀ taken, changes (pt.instr x.state.pc) taken r) ∧ ActivationRun pt (before ++ [x]) s₁ ∧ (∀ y ∈ after, ¬ y.written r) ∧
    ¬ changesEarly (pt.instr s.pc) r ∧ reg r = s₁.reg r

/-- The instruction of the run that has set the register last. -/
def LastChange (pt : Proto) (r : Nat) (steps : List (Executed N)) (x : Executed N) : Prop :=
  ∃ before after, steps = before ++ x :: after ∧ (∀ taken, changes (pt.instr x.state.pc) taken r) ∧ ∀ y ∈ after, ¬ y.written r

/-- The value comes from an instruction that refers to the name that `getobjname` finds, exactly when the run has set the
register last with an instruction that refers to the same name as the one in sight, and the failing instruction has not
overwritten the register already. -/
theorem getobjname_putThere {steps : List (Executed N)} {s : RegisterState N} {reg : Nat → TValue N} {kind : NameKind} {name : TString}
    (run : ActivationRun pt steps s) (isRegister : r < pt.maxstacksize.toNat) (fails : ∀ r, ¬ changesEarly (pt.instr s.pc) r → reg r = s.reg r)
    (named : getobjname pt s.pc r = some (kind, name)) (notLocal : kind ≠ .localVar) :
    PutThere pt steps s reg r kind name ↔ ¬ changesEarly (pt.instr s.pc) r ∧
      ∃ x q, LastChange pt r steps x ∧ Origin pt s.pc r q ∧ nameAt pt (pt.instr x.state.pc) = nameAt pt (pt.instr q) := by
  have real : r < noReg := lt_of_lt_of_le isRegister (Nat.le_of_lt_succ pt.maxstacksize.toNat_lt)
  obtain ⟨q, origin, found⟩ := getobjname_origin real named notLocal
  constructor
  · rintro ⟨before, x, after, s₁, split, name, changed, run₁, untouched, notEarly, value⟩
    exact ⟨notEarly, x, q, ⟨before, after, split, changed, untouched⟩, origin, name.trans found.symm⟩
  · rintro ⟨notEarly, x, q', ⟨before, after, rfl, changed, untouched⟩, origin', same⟩
    obtain rfl := origin.unique origin'
    rw [List.append_cons] at run
    obtain ⟨s₁, run₁, kept⟩ := run.split
    refine ⟨before, x, after, s₁, rfl, same.trans found, changed, run₁, untouched, notEarly, ?_⟩
    rw [fails r notEarly, kept r untouched]

/-! ## A choice between two functions -/

section Choice

open Compiler Code Lexer Gafq.Parser

/-- The tokens of `(a and b or c)()`. -/
def choiceTokens : List (Token Int × Nat) :=
  [(⟨tok '(', .r 0⟩, 1), (⟨tkName, .ts (bytes "a")⟩, 1), (⟨tkAnd, .r 0⟩, 1), (⟨tkName, .ts (bytes "b")⟩, 1), (⟨tkOr, .r 0⟩, 1),
    (⟨tkName, .ts (bytes "c")⟩, 1), (⟨tok ')', .r 0⟩, 1), (⟨tok '(', .r 0⟩, 1), (⟨tok ')', .r 0⟩, 1)]

/-- Names are single letters here. -/
def letterEnv : Env Int := { intEnv with text := fun n => [UInt8.ofNat n] }

def compiledChoice : Option Proto :=
  match parser letterEnv 8 (initial choiceTokens 1 0 0) with
  | .ok pt _ => some pt
  | .error .. => none

end Choice

/-- The function that is compiled. -/
def choice : Proto where
  k := [.string (some [97]), .string (some [98]), .string (some [99])]
  -- a, test, jump to c, b, test, jump to the call, c, the call, return
  code := [5, 26, 2147516438, 16389, 16410, 2147483670, 32773, 8405020, 8388638]
  p := []
  lineinfo := [1, 1, 1, 1, 1, 1, 1, 1, 1]
  locvars := []
  upvalues := []
  source := some []
  linedefined := 0
  lastlinedefined := 0
  nups := 0
  numparams := 0
  isVararg := 2
  maxstacksize := 2

theorem choice_compiled : compiledChoice = some choice := by
  have code : compiledChoice.map (fun pt => (pt.k, pt.code, pt.p.length)) = some (choice.k, choice.code, 0) := by
    decide +kernel
  have debug : compiledChoice.map (fun pt => (pt.lineinfo, pt.locvars)) = some (choice.lineinfo, []) := by
    decide +kernel
  have strings : compiledChoice.map (fun pt => (pt.upvalues, pt.source)) = some ([], some []) := by
    decide +kernel
  have numbers : compiledChoice.map (fun pt =>
      (pt.linedefined, pt.lastlinedefined, pt.nups, pt.numparams, pt.isVararg, pt.maxstacksize)) = some (0, 0, 0, 0, 2, 2) := by
    decide +kernel
  obtain ⟨pt, same, equal⟩ := Option.map_eq_some_iff.mp code
  rw [same] at numbers debug strings
  cases pt
  simp only [Option.map_some, Option.some.injEq, Prod.mk.injEq, List.length_eq_zero_iff] at equal numbers debug strings
  simp only [same, equal, numbers, debug, strings, choice]

theorem executes_getglobal (inside : pc < pt.sizecode) (op : opcode? (pt.instr pc) = some .getglobal) (reg : Nat → TValue N) (v : TValue N) :
    Executes pt false (· = getArgA (pt.instr pc)) ⟨pc, reg⟩ ⟨pc + 1, Function.update reg (getArgA (pt.instr pc)) v⟩ where
  inside := inside
  stays := by simp [op]
  decides := by simp [RegisterState.Decides, op]
  next := by simp [nextPc, op]
  writes r changed := by simpa [changes, op] using changed
  results := by simp [RegisterState.Results, op]
  frame r unwritten := Function.update_of_ne unwritten _ _

theorem executes_test {taken : Bool} (inside : pc < pt.sizecode) (op : opcode? (pt.instr pc) = some .test) (reg : Nat → TValue N)
    (decided : taken = differs (reg (getArgA (pt.instr pc))) (getArgC (pt.instr pc)))
    (next : (q : Int) = nextPc ⟨pt, pc⟩ (pt.instr pc) taken) : Executes pt taken (fun _ => False) ⟨pc, reg⟩ ⟨q, reg⟩ where
  inside := inside
  stays := by simp [op]
  decides := by simpa [RegisterState.Decides, op] using decided
  next := next
  writes r changed := by simp [changes, op] at changed
  results := by simp [RegisterState.Results, op]
  frame r _ := rfl

/-- RegisterState with a value in the first one. -/
def firstRegister (v : TValue Int) : Nat → TValue Int := Function.update (fun _ => .nil) 0 v

/-- One of the three functions is loaded into the register 0. -/
theorem choice_loads {pc : Nat} (load : pc ∈ [0, 3, 6]) (w v : TValue Int) :
    Executes choice false (· = 0) ⟨pc, firstRegister w⟩ ⟨pc + 1, firstRegister v⟩ := by
  have op : ∀ pc ∈ [0, 3, 6], opcode? (choice.instr pc) = some .getglobal := by decide
  have target : ∀ pc ∈ [0, 3, 6], getArgA (choice.instr pc) = 0 := by decide
  have inside : ∀ pc ∈ [0, 3, 6], pc < choice.sizecode := by decide
  have executes := executes_getglobal (inside pc load) (op pc load) (firstRegister w) v
  rwa [target pc load, firstRegister, Function.update_idem] at executes

/-- The condition is false, and the third function is loaded. -/
theorem choice_false : Executes choice true (fun _ => False) ⟨1, firstRegister (.boolean false)⟩
    ⟨6, firstRegister (.boolean false)⟩ := by
  have op : opcode? (choice.instr 1) = some .test := by decide
  have operands : getArgA (choice.instr 1) = 0 ∧ getArgC (choice.instr 1) = 0 := by decide
  have way : nextPc ⟨choice, 1⟩ (choice.instr 1) true = 6 := by decide
  exact executes_test (by decide) op _ (by rw [operands.1, operands.2]; rfl) way.symm

/-- The condition is true, and the second function is loaded. -/
theorem choice_true : Executes choice false (fun _ => False) ⟨1, firstRegister (.boolean true)⟩
    ⟨3, firstRegister (.boolean true)⟩ := by
  have op : opcode? (choice.instr 1) = some .test := by decide
  have operands : getArgA (choice.instr 1) = 0 ∧ getArgC (choice.instr 1) = 0 := by decide
  have way : nextPc ⟨choice, 1⟩ (choice.instr 1) false = 3 := by decide
  exact executes_test (by decide) op _ (by rw [operands.1, operands.2]; rfl) way.symm

/-- The second function is not false, and it is called. -/
theorem choice_second : Executes choice true (fun _ => False) ⟨4, firstRegister (.number 5)⟩ ⟨7, firstRegister (.number 5)⟩ := by
  have op : opcode? (choice.instr 4) = some .test := by decide
  have operands : getArgA (choice.instr 4) = 0 ∧ getArgC (choice.instr 4) = 1 := by decide
  have way : nextPc ⟨choice, 4⟩ (choice.instr 4) true = 7 := by decide
  exact executes_test (by decide) op _ (by rw [operands.1, operands.2]; rfl) way.symm

/-- The third function is loaded and called. -/
def thirdCalled : List (Executed Int) :=
  [⟨⟨0, firstRegister .nil⟩, (· = 0)⟩, ⟨⟨1, firstRegister (.boolean false)⟩, fun _ => False⟩,
    ⟨⟨6, firstRegister (.boolean false)⟩, (· = 0)⟩]

theorem thirdCalled_run : ActivationRun choice thirdCalled ⟨7, firstRegister (.number 5)⟩ :=
  ((ActivationRun.enter (firstRegister .nil)).execute (choice_loads (by simp) _ _)).execute choice_false |>.execute
    (choice_loads (by simp) _ _)

/-- The second function is loaded and called. -/
def secondCalled : List (Executed Int) :=
  [⟨⟨0, firstRegister .nil⟩, (· = 0)⟩, ⟨⟨1, firstRegister (.boolean true)⟩, fun _ => False⟩,
    ⟨⟨3, firstRegister (.boolean true)⟩, (· = 0)⟩, ⟨⟨4, firstRegister (.number 5)⟩, fun _ => False⟩]

theorem secondCalled_run : ActivationRun choice secondCalled ⟨7, firstRegister (.number 5)⟩ :=
  (((ActivationRun.enter (firstRegister .nil)).execute (choice_loads (by simp) _ _)).execute choice_true |>.execute
    (choice_loads (by simp) _ _)).execute choice_second

theorem choice_named : getobjname choice 7 0 = some (.global, Lexer.bytes "c") := by decide

/-- The jump over the third function is passed over itself. -/
theorem choice_inSight : InSight choice 7 0 6 where
  before := by decide
  targets := by
    have op : opcode? (choice.instr 6) = some .getglobal := by decide
    have target : getArgA (choice.instr 6) = 0 := by decide
    simp [Targets, op, target, opmodes]
  clear passed := passedOver_iff.mp passed 3 (by decide)
  last q after before := by omega

theorem getobjname_putThere_choice :
    PutThere choice thirdCalled ⟨7, firstRegister (.number 5)⟩ (firstRegister (.number 5)) 0 .global (Lexer.bytes "c") := by
  have load : opcode? (choice.instr 6) = some .getglobal := by decide
  have target : getArgA (choice.instr 6) = 0 := by decide
  have notEarly : ¬ changesEarly (choice.instr 7) 0 := by
    have op : opcode? (choice.instr 7) = some .call := by decide
    simp [changesEarly, op]
  refine (getobjname_putThere thirdCalled_run (by decide) (fun _ _ => rfl) choice_named (by decide)).mpr
    ⟨notEarly, ⟨⟨6, firstRegister (.boolean false)⟩, (· = 0)⟩, 6, ⟨thirdCalled.take 2, [], rfl, ?_, by simp⟩, ?_, rfl⟩
  · simp [changes, load, target]
  · exact .target choice_inSight (by rw [load]; decide)

/-- The first two functions are `true` and 5; the message blames the third one, which has not been looked up. -/
theorem getobjname_blames_other : compiledChoice = some choice ∧
    ActivationRun choice secondCalled ⟨7, firstRegister (.number 5)⟩ ∧ opcode? (choice.instr 7) = some .call ∧
    getArgA (choice.instr 7) = 0 ∧ firstRegister (.number 5) 0 = .number 5 ∧
    getobjname choice 7 0 = some (.global, Lexer.bytes "c") ∧
    ∀ reg, ¬ PutThere choice secondCalled ⟨7, firstRegister (.number 5)⟩ reg 0 .global (Lexer.bytes "c") := by
  have names : ∀ pc ∈ [0, 1, 3, 4], nameAt choice (choice.instr pc) ≠ some (.global, Lexer.bytes "c") := by decide
  have positions : ∀ x ∈ secondCalled, x.state.pc ∈ [0, 1, 3, 4] := by simp [secondCalled]
  refine ⟨choice_compiled, secondCalled_run, by decide, by decide, rfl, choice_named, ?_⟩
  rintro reg ⟨before, x, after, s₁, split, name, -⟩
  have executed : x ∈ secondCalled := by simp [split]
  exact names _ (positions x executed) name

end Gafq
