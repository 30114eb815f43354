import Gafq.VM

/-! # What the code checker guarantees about control flow

The checker scans the code once, from left to right, stepping over the count word of every
`OP_SETLIST` with `C = 0`.  `countWord` says which positions those are; `scan_checked` says the
scan has made its tests at every other position.  From there each instruction is a local
argument: the tests made at its position imply that the next fetch is again inside the code and
not on a count word.

The argument has one gap.  The checker looks at the skip of `OP_LOADBOOL` only when `C = 1`,
while the interpreter skips whenever `C` is not zero.  `SkipChecked` is the test it omits.
-/

namespace Gafq

/-! ## Count words -/

/-- Position `m` holds the raw count of an `OP_SETLIST` with `C = 0`: the word before it looks
like one and is not itself a count. -/
def countWord (pt : Proto) : Nat → Bool
  | 0 => false
  | m + 1 => isOpenSetlist (pt.instr m) && !countWord pt m

/-- The parity test of the checker recognises exactly the count words. -/
theorem setlistRun_even_iff (pt : Proto) (m : Nat) :
    (setlistRun pt m % 2 == 0) = !countWord pt m := by
  induction m with
  | zero => rfl
  | succ m inductionHypothesis =>
    simp only [setlistRun, countWord]
    cases isOpenSetlist (pt.instr m) with
    | false => rfl
    | true =>
      simp only [if_true, Bool.true_and, Bool.not_not]
      have parity : (setlistRun pt m % 2 == 0) = true ↔ ¬((setlistRun pt m + 1) % 2 == 0) = true := by
        simp only [beq_iff_eq]; omega
      cases counted : countWord pt m <;> simp_all

/-- A position where an instruction may be fetched. -/
structure Placed (pt : Proto) (pc : Int) : Prop where
  nonneg : 0 ≤ pc
  inside : pc < pt.sizecode
  instruction : countWord pt pc.toNat = false

/-! ## The scan -/

/-- Without a traced register the scan moves to the next word, or over one count word. -/
theorem stepPc_noReg (pt : Proto) (lastpc pc : Nat) :
    stepPc pt lastpc noReg pc = if isOpenSetlist (pt.instr pc) then pc + 1 else pc := by
  unfold stepPc isOpenSetlist hasOpcode
  cases decoded : opcode? (pt.instr pc) with
  | none => simp [decoded]
  | some op => cases op <;> simp [decoded]

theorem scan_checked (pt : Proto) (n : Nat) : ∀ (fuel pc last result : Nat),
    symbexecLoop pt n noReg fuel pc last = some result → n ≤ pc + fuel → countWord pt pc = false →
    ∀ q, pc ≤ q → q < n → countWord pt q = false → stepChecks pt q = true := by
  intro fuel
  induction fuel with
  | zero => intro pc last result _ enough _ q reached inside; omega
  | succ fuel inductionHypothesis =>
    intro pc last result accepted enough start q reached inside real
    have more : pc < n := by omega
    simp only [symbexecLoop, more, if_true] at accepted
    split at accepted
    · rename_i checked
      by_cases here : q = pc
      · exact here ▸ checked
      · rw [stepPc_noReg] at accepted
        -- the next scanned position, and why `q` is not before it
        by_cases openList : isOpenSetlist (pt.instr pc) = true
        · simp only [openList, if_true] at accepted
          have skipped : countWord pt (pc + 1) = true := by simp [countWord, openList, start]
          have past : q ≠ pc + 1 := fun equal => by simp [equal, skipped] at real
          refine inductionHypothesis _ _ _ accepted (by omega) ?_ q (by omega) inside real
          simp [countWord, openList, start]
        · simp only [openList] at accepted
          refine inductionHypothesis _ _ _ accepted (by simp; omega) ?_ q (by simp; omega) inside real
          simp [countWord, openList]
    · exact absurd accepted (by simp)

theorem checkcode_scan {pt : Proto} (accepted : checkcode pt = true) :
    precheck pt = true ∧
      ∃ last, symbexecLoop pt pt.sizecode noReg pt.sizecode 0 (pt.sizecode - 1) = some last := by
  simp only [checkcode, symbexec, bne_iff_ne, ne_eq] at accepted
  split at accepted
  · rename_i pre
    refine ⟨pre, ?_⟩
    cases result : symbexecLoop pt pt.sizecode noReg pt.sizecode 0 (pt.sizecode - 1) with
    | none => simp [result] at accepted
    | some last => exact ⟨last, rfl⟩
  · exact absurd rfl accepted

/-- The checker's tests hold at every position where an instruction may be fetched. -/
theorem checkcode_stepChecks {pt : Proto} (accepted : checkcode pt = true) {pc : Nat}
    (inside : pc < pt.sizecode) (real : countWord pt pc = false) : stepChecks pt pc = true := by
  obtain ⟨_, last, scanned⟩ := checkcode_scan accepted
  exact scan_checked pt pt.sizecode _ 0 _ last scanned (by omega) rfl pc (by omega) inside real

theorem precheck_code {pt : Proto} (accepted : checkcode pt = true) :
    0 < pt.sizecode ∧ opcode? (pt.instr (pt.sizecode - 1)) = some .return := by
  have pre := (checkcode_scan accepted).1
  simp only [precheck, hasOpcode, Bool.and_eq_true, decide_eq_true_eq, beq_iff_eq] at pre
  exact pre.2

/-- The tests made at one position, separated. -/
theorem stepChecks_iff {pt : Proto} {pc : Nat} {op : OpCode} (decoded : opcode? (pt.instr pc) = some op) :
    stepChecks pt pc = true ↔ checkReg pt (getArgA (pt.instr pc)) = true ∧
      operandChecks pt pc (pt.instr pc) op = true ∧ testChecks pt pc op = true ∧
      opChecks pt pc (pt.instr pc) op = true := by
  simp only [stepChecks, decoded, Bool.and_eq_true]
  tauto

/-! ## Where a fetch may go -/

theorem placed_start {pt : Proto} (accepted : checkcode pt = true) : Placed pt 0 :=
  ⟨Int.le_refl 0, by exact_mod_cast (precheck_code accepted).1, rfl⟩

/-- An instruction other than the final `OP_RETURN` is followed by another word. -/
theorem following_inside {pt : Proto} (accepted : checkcode pt = true) {pc : Nat}
    (inside : pc < pt.sizecode) (stays : opcode? (pt.instr pc) ≠ some .return) : pc + 1 < pt.sizecode := by
  obtain ⟨nonempty, last⟩ := precheck_code accepted
  by_contra outside
  have equal : pc = pt.sizecode - 1 := by omega
  exact stays (equal ▸ last)

theorem countWord_succ {pt : Proto} {pc : Nat} {op : OpCode} (decoded : opcode? (pt.instr pc) = some op)
    (closed : op ≠ .setlist) : countWord pt (pc + 1) = false := by
  simp [countWord, isOpenSetlist, hasOpcode, decoded, closed]

theorem placed_dest {pt : Proto} {dest : Int} (checked : checkDest pt dest = true) : Placed pt dest := by
  simp only [checkDest, Bool.and_eq_true, Bool.or_eq_true, Bool.not_eq_true', decide_eq_true_eq,
    decide_eq_false_iff_not] at checked
  obtain ⟨⟨nonneg, inside⟩, parity⟩ := checked
  refine ⟨nonneg, inside, ?_⟩
  rcases parity with zero | even
  · have : dest = 0 := by omega
    subst this
    rfl
  · rw [setlistRun_even_iff] at even
    simpa using even

/-- After an instruction that is neither `OP_RETURN` nor `OP_SETLIST`, the next word is one too. -/
theorem placed_succ {pt : Proto} (accepted : checkcode pt = true) {pc : Nat} {op : OpCode}
    (inside : pc < pt.sizecode) (decoded : opcode? (pt.instr pc) = some op)
    (stays : op ≠ .return) (closed : op ≠ .setlist) : Placed pt (pc + 1) := by
  refine ⟨by omega, ?_, ?_⟩
  · exact_mod_cast following_inside accepted inside (by simpa [decoded] using stays)
  · exact_mod_cast countWord_succ decoded closed

/-- A test instruction is followed by a jump, and both ways out of the pair are checked. -/
theorem placed_test {pt : Proto} (accepted : checkcode pt = true) {pc : Nat} {op : OpCode}
    (decoded : opcode? (pt.instr pc) = some op)
    (closed : op ≠ .setlist) (test : (opmodes op).test = true) (checks : testChecks pt pc op = true) :
    Placed pt (pc + 2) ∧ Placed pt (pc + 1 + getArgSBx (pt.instr (pc + 1)) + 1) := by
  simp only [testChecks, test, hasOpcode, Bool.not_true, Bool.false_or, Bool.and_eq_true,
    decide_eq_true_eq, beq_iff_eq] at checks
  obtain ⟨inside, jump⟩ := checks
  have real : countWord pt (pc + 1) = false := countWord_succ decoded closed
  constructor
  · have placed := placed_succ accepted (by omega : pc + 1 < pt.sizecode) jump (by decide) (by decide)
    have equal : ((pc + 1 : Nat) : Int) + 1 = pc + 2 := by push_cast; omega
    rwa [equal] at placed
  · have scanned := checkcode_stepChecks accepted (by omega) real
    rw [stepChecks_iff jump] at scanned
    have dest := scanned.2.1
    simp only [operandChecks, opmodes, bne_self_eq_false, Bool.false_or] at dest
    have equal : (pc : Int) + 1 + getArgSBx (pt.instr (pc + 1)) + 1 =
        ((pc + 1 : Nat) : Int) + 1 + getArgSBx (pt.instr (pc + 1)) := by push_cast; omega
    rw [equal]
    exact placed_dest dest

/-- The pseudo-instructions after `OP_CLOSURE` end before the final `OP_RETURN`. -/
theorem placed_closure {pt : Proto} (accepted : checkcode pt = true) {pc : Nat}
    (decoded : opcode? (pt.instr pc) = some .closure)
    (checks : opChecks pt pc (pt.instr pc) .closure = true) :
    Placed pt (pc + 1 + pt.nestedNups (getArgBx (pt.instr pc))) := by
  simp only [opChecks, operandB, opmodes, Int.toNat_natCast, Bool.and_eq_true, List.all_eq_true,
    List.mem_range, Bool.or_eq_true, hasOpcode, beq_iff_eq] at checks
  obtain ⟨⟨_, fitsDecided⟩, pseudo⟩ := checks
  have fits := of_decide_eq_true fitsDecided
  -- every word up to the last pseudo-instruction is `OP_CLOSURE`, `OP_GETUPVAL` or `OP_MOVE`
  have plain : ∀ j, j ≤ pt.nestedNups (getArgBx (pt.instr pc)) →
      ∃ op, opcode? (pt.instr (pc + j)) = some op ∧ op ≠ .return ∧ op ≠ .setlist := by
    intro j bound
    cases j with
    | zero => exact ⟨.closure, decoded, by decide, by decide⟩
    | succ j =>
      rcases pseudo j (by omega) with getupval | move
      · exact ⟨_, getupval, by decide, by decide⟩
      · exact ⟨_, move, by decide, by decide⟩
  obtain ⟨op, decodedLast, stays, closed⟩ := plain _ (Nat.le_refl _)
  have placed := placed_succ accepted fits decodedLast stays closed
  have equal : ((pc + pt.nestedNups (getArgBx (pt.instr pc)) : Nat) : Int) + 1 =
      pc + 1 + pt.nestedNups (getArgBx (pt.instr pc)) := by push_cast; omega
  rwa [equal] at placed

theorem placed_setlist {pt : Proto} (accepted : checkcode pt = true) {pc : Nat}
    (inside : pc < pt.sizecode) (real : countWord pt pc = false)
    (decoded : opcode? (pt.instr pc) = some .setlist)
    (checks : opChecks pt pc (pt.instr pc) .setlist = true) :
    Placed pt (if getArgC (pt.instr pc) = 0 then pc + 2 else pc + 1) := by
  simp only [opChecks, operandC, opmodes, Bool.and_eq_true, Bool.or_eq_true, Bool.not_eq_true',
    decide_eq_true_eq, beq_eq_false_iff_ne] at checks
  have following := following_inside accepted inside (by simp [decoded])
  split
  · rename_i counted
    have openList : isOpenSetlist (pt.instr pc) = true := by simp [isOpenSetlist, hasOpcode, decoded, counted]
    have room : pc + 1 < pt.sizecode - 1 := checks.2.resolve_left (by simp [counted])
    refine ⟨by omega, by omega, ?_⟩
    have equal : ((pc : Int) + 2).toNat = pc + 1 + 1 := by omega
    rw [equal]
    simp [countWord, openList, real]
  · rename_i counted
    refine ⟨by omega, by omega, ?_⟩
    have equal : ((pc : Int) + 1).toNat = pc + 1 := by omega
    rw [equal]
    simp [countWord, isOpenSetlist, hasOpcode, decoded, counted]

/-! ## One step, and whole runs -/

/-- The test the checker makes on the skip of `OP_LOADBOOL` when `C` is one, asked here for every
`C` for which the interpreter skips. -/
def SkipChecked (fr : Frame) : Prop :=
  ∀ i, fr.instr? = some i → opcode? i = some .loadbool → getArgC i ≠ 0 →
    fr.pc + 2 < fr.proto.sizecode ∧ isOpenSetlist fr.following = false

/-- The word a placed frame has fetched. -/
theorem fetched_word {pt : Proto} {pc : Nat} {i : Instruction}
    (fetched : (⟨pt, pc⟩ : Frame).instr? = some i) : i = pt.instr pc := by
  simp only [Frame.instr?, Int.natCast_nonneg, if_true, Int.toNat_natCast] at fetched
  simp [Proto.instr, List.getD, fetched]

/-- A checked instruction leaves `pc` on an instruction, whatever the run-time test says. -/
theorem placed_nextPc {pt : Proto} {pc : Nat} {i : Instruction} (accepted : checkcode pt = true)
    (inside : pc < pt.sizecode) (real : countWord pt pc = false)
    (fetched : (⟨pt, pc⟩ : Frame).instr? = some i) (stays : opcode? i ≠ some .return)
    (skip : SkipChecked ⟨pt, pc⟩) (taken : Bool) : Placed pt (nextPc ⟨pt, pc⟩ i taken) := by
  obtain rfl := fetched_word fetched
  have checks := checkcode_stepChecks accepted inside real
  cases decoded : opcode? (pt.instr pc) with
  | none => simp [stepChecks, decoded] at checks
  | some op =>
    rw [stepChecks_iff decoded] at checks
    obtain ⟨_, operands, tests, special⟩ := checks
    rw [decoded] at stays
    unfold nextPc
    cases op with
    | «return» => exact absurd rfl stays
    | setlist => simpa only [decoded] using placed_setlist accepted inside real decoded special
    | closure => simpa only [decoded] using placed_closure accepted decoded special
    | jmp | forprep =>
      simp only [operandChecks, opmodes, bne_self_eq_false, Bool.false_or] at operands
      simpa only [decoded] using placed_dest operands
    | forloop =>
      simp only [operandChecks, opmodes, bne_self_eq_false, Bool.false_or] at operands
      simp only [decoded]
      cases taken with
      | true => exact placed_dest operands
      | false => exact placed_succ accepted inside decoded (by decide) (by decide)
    | eq | lt | le | test | testset | tforloop =>
      obtain ⟨skipped, jumped⟩ := placed_test accepted decoded (by decide) rfl tests
      simp only [decoded, Frame.following, Int.toNat_natCast]
      cases taken with
      | true => exact jumped
      | false => exact skipped
    | loadbool =>
      simp only [decoded]
      split
      · rename_i skips
        obtain ⟨room, closed⟩ := skip _ fetched decoded skips
        simp only [Frame.following, Int.toNat_natCast] at room closed
        refine ⟨by omega, room, ?_⟩
        have equal : ((pc : Int) + 2).toNat = pc + 1 + 1 := by omega
        rw [equal]
        simp [countWord, closed]
      · exact placed_succ accepted inside decoded (by decide) (by decide)
    | _ => simpa only [decoded] using placed_succ accepted inside decoded (by decide) (by decide)

/-- Every frame of an accepted prototype is on an instruction. -/
def AllPlaced (s : List Frame) : Prop :=
  ∀ fr ∈ s, checkcode fr.proto = true → Placed fr.proto fr.pc

theorem allPlaced_step {s t : List Frame} (moved : GuardedStep SkipChecked s t)
    (placed : AllPlaced s) : AllPlaced t := by
  obtain ⟨step, guarded⟩ := moved
  cases step with
  | @next fr i rest taken fetched stays =>
    have skip : SkipChecked fr := guarded fr rfl
    intro other member accepted
    cases member with
    | head =>
      obtain ⟨pt, pc⟩ := fr
      obtain ⟨nonneg, inside, real⟩ := placed _ (List.mem_cons_self ..) accepted
      obtain ⟨pc, rfl⟩ := Int.eq_ofNat_of_zero_le nonneg
      exact placed_nextPc accepted (Int.ofNat_lt.mp inside) real fetched stays skip taken
    | tail _ member => exact placed other (List.mem_cons_of_mem _ member) accepted
  | enter callee fetched =>
    intro other member accepted
    cases member with
    | head => exact placed_start accepted
    | tail _ member => exact placed other member accepted
  | tail callee fetched op =>
    intro other member accepted
    cases member with
    | head => exact placed_start accepted
    | tail _ member => exact placed other (List.mem_cons_of_mem _ member) accepted
  | leave => exact fun other member accepted => placed other (List.mem_cons_of_mem _ member) accepted

theorem allPlaced_run {pt : Proto} {s : List Frame} (run : RunFrom SkipChecked pt s) : AllPlaced s := by
  induction run with
  | refl =>
    intro fr member accepted
    rw [List.mem_singleton] at member
    subst member
    exact placed_start accepted
  | tail _ step inductionHypothesis => exact allPlaced_step step inductionHypothesis

/-- The omitted test is necessary: a skip that fails it lands outside the code or on a count. -/
theorem not_placed_of_not_skipChecked {pt : Proto} {pc : Nat} (unchecked : ¬ SkipChecked ⟨pt, pc⟩) :
    ∃ i, (⟨pt, pc⟩ : Frame).instr? = some i ∧ opcode? i ≠ some .return ∧
      ∀ taken, ¬ Placed pt (nextPc ⟨pt, pc⟩ i taken) := by
  simp only [SkipChecked, not_forall] at unchecked
  obtain ⟨i, fetched, decoded, skips, bad⟩ := unchecked
  refine ⟨i, fetched, by simp [decoded], fun taken landed => bad ?_⟩
  simp only [nextPc, decoded, skips, ne_eq, not_false_eq_true, if_true] at landed
  obtain ⟨_, inside, instruction⟩ := landed
  refine ⟨inside, ?_⟩
  have equal : ((pc : Int) + 2).toNat = pc + 1 + 1 := by omega
  have plain : countWord pt (pc + 1) = false := by
    obtain rfl := fetched_word fetched
    exact countWord_succ decoded (by decide)
  rw [equal, countWord, plain, Bool.not_false, Bool.and_true] at instruction
  simpa [Frame.following] using instruction

/-- In a run that makes the omitted test at every step, every fetch from an accepted prototype is
inside the code and off the count words; and when the innermost frame fails the test, its next
fetch is not. -/
theorem fetch_safe_iff_skipChecked (pt : Proto) (s : List Frame) (run : RunFrom SkipChecked pt s) :
    ∀ fr ∈ s, checkcode fr.proto = true →
      (0 ≤ fr.pc ∧ fr.pc < fr.proto.sizecode ∧ countWord fr.proto fr.pc.toNat = false) ∧
      (∀ rest, s = fr :: rest → ¬ SkipChecked fr →
        ∃ next, Step s ({ fr with pc := next } :: rest) ∧
          ¬ (0 ≤ next ∧ next < fr.proto.sizecode ∧ countWord fr.proto next.toNat = false)) := by
  intro fr member accepted
  have placed := allPlaced_run run fr member accepted
  refine ⟨⟨placed.nonneg, placed.inside, placed.instruction⟩, ?_⟩
  rintro rest rfl unchecked
  obtain ⟨pt, pc⟩ := fr
  obtain ⟨pc, rfl⟩ := Int.eq_ofNat_of_zero_le placed.nonneg
  obtain ⟨i, fetched, stays, lost⟩ := not_placed_of_not_skipChecked unchecked
  exact ⟨_, .next true fetched stays, fun safe => lost true ⟨safe.1, safe.2.1, safe.2.2⟩⟩

/-- `LOADBOOL 0 1 1; LOADBOOL 0 0 0; RETURN 0 2`: the code of `return a == b` after its test. -/
def skipOverFalse : Proto :=
  { (default : Proto) with
    code := [createABC OpCode.loadbool.toNat 0 1 1, createABC OpCode.loadbool.toNat 0 0 0,
      createABC OpCode.return.toNat 0 2 0]
    maxstacksize := 2 }

theorem fetch_safe_skipOverFalse :
    checkcode skipOverFalse = true ∧ RunFrom SkipChecked skipOverFalse [⟨skipOverFalse, 2⟩] ∧
      (0 : Int) ≤ 2 ∧ (2 : Int) < skipOverFalse.sizecode ∧ countWord skipOverFalse 2 = false := by
  have accepted : checkcode skipOverFalse = true := by decide
  have step : Step [⟨skipOverFalse, 0⟩] [⟨skipOverFalse, 2⟩] :=
    .next (i := createABC OpCode.loadbool.toNat 0 1 1) false (by decide) (by decide)
  have checked : ∀ fr ∈ [(⟨skipOverFalse, 0⟩ : Frame)].head?, SkipChecked fr := by
    intro fr first i _ _ _
    obtain rfl := Option.some.inj first
    decide
  have run : RunFrom SkipChecked skipOverFalse [⟨skipOverFalse, 2⟩] := .single ⟨step, checked⟩
  exact ⟨accepted, run,
    (fetch_safe_iff_skipChecked skipOverFalse _ run ⟨skipOverFalse, 2⟩ (List.mem_singleton_self _) accepted).1⟩

/-- `LOADBOOL 0 0 2; RETURN 0 1`: the skip leaves the code. -/
def skipPastEnd : Proto :=
  { (default : Proto) with
    code := [createABC OpCode.loadbool.toNat 0 0 2, createABC OpCode.return.toNat 0 1 0]
    maxstacksize := 2 }

/-- The checker accepts `skipPastEnd`, and the interpreter fetches past its end. -/
theorem accepted_fetch_outside :
    checkcode skipPastEnd = true ∧
      ∃ s, RunFrom (fun _ => True) skipPastEnd s ∧ ∃ fr ∈ s, fr.proto = skipPastEnd ∧
        ¬ (0 ≤ fr.pc ∧ fr.pc < fr.proto.sizecode ∧ countWord fr.proto fr.pc.toNat = false) := by
  refine ⟨by decide, [⟨skipPastEnd, 2⟩], ?_, ⟨skipPastEnd, 2⟩, List.mem_singleton_self _, rfl, by decide⟩
  have step : Step [⟨skipPastEnd, 0⟩] [⟨skipPastEnd, 2⟩] :=
    .next (i := createABC OpCode.loadbool.toNat 0 0 2) false (by decide) (by decide)
  exact .single ⟨step, fun _ _ => trivial⟩

end Gafq
