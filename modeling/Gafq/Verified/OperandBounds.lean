import Gafq.Verified.CheckcodeSoundness

/-! # What the code checker guarantees about operands

For an instruction at a position the checker has scanned, every register, constant, upvalue and
nested function that the interpreter's `case` touches at a fixed offset is in range, with one
exception: `OP_TFORLOOP` copies the iterator, its state and the control variable to `R(A+3)`,
`R(A+4)` and `R(A+5)` before the call, while the checker bounds only the `C` results from
`R(A+3)` on.  `IteratorRoom` is the bound it leaves out.
-/

namespace Gafq

namespace Accesses

@[simp] theorem append_regs (x y : Accesses) : (x ++ y).regs = x.regs ++ y.regs := rfl
@[simp] theorem append_consts (x y : Accesses) : (x ++ y).consts = x.consts ++ y.consts := rfl
@[simp] theorem append_upvals (x y : Accesses) : (x ++ y).upvals = x.upvals ++ y.upvals := rfl
@[simp] theorem append_protos (x y : Accesses) : (x ++ y).protos = x.protos ++ y.protos := rfl

theorem inBounds_append (pt : Proto) (x y : Accesses) :
    (x ++ y).InBounds pt ↔ x.InBounds pt ∧ y.InBounds pt := by
  constructor
  · rintro ⟨regs, consts, upvals, protos⟩
    simp only [append_regs, append_consts, append_upvals, append_protos, List.forall_mem_append]
      at regs consts upvals protos
    exact ⟨⟨regs.1, consts.1, upvals.1, protos.1⟩, ⟨regs.2, consts.2, upvals.2, protos.2⟩⟩
  · rintro ⟨⟨regs, consts, upvals, protos⟩, ⟨regs', consts', upvals', protos'⟩⟩
    constructor <;> simp only [append_regs, append_consts, append_upvals, append_protos,
      List.forall_mem_append]
    · exact ⟨regs, regs'⟩
    · exact ⟨consts, consts'⟩
    · exact ⟨upvals, upvals'⟩
    · exact ⟨protos, protos'⟩

theorem inBounds_regs (pt : Proto) (rs : List Nat) :
    ({ regs := rs } : Accesses).InBounds pt ↔ ∀ r ∈ rs, r < pt.maxstacksize.toNat :=
  ⟨fun bounds => bounds.regs, fun bounds => ⟨bounds, by simp, by simp, by simp⟩⟩

theorem inBounds_range (pt : Proto) (first n : Nat) :
    (accessRange first n).InBounds pt ↔ n = 0 ∨ first + n ≤ pt.maxstacksize.toNat := by
  rw [accessRange, inBounds_regs]
  constructor
  · intro bounds
    rcases Nat.eq_zero_or_pos n with zero | positive
    · exact .inl zero
    · have last := bounds (first + (n - 1)) (List.mem_range'_1.mpr (by omega))
      exact .inr (by omega)
  · intro bounds r member
    have := List.mem_range'_1.mp member
    omega

theorem inBounds_foldl (pt : Proto) (f : Instruction → Accesses) (ws : List Instruction) (start : Accesses) :
    (ws.foldl (fun acc w => acc ++ f w) start).InBounds pt ↔
      start.InBounds pt ∧ ∀ w ∈ ws, (f w).InBounds pt := by
  induction ws generalizing start with
  | nil => simp
  | cons w ws inductionHypothesis =>
    simp only [List.foldl_cons, inductionHypothesis, inBounds_append, List.forall_mem_cons]
    tauto

end Accesses

open Accesses

theorem checkReg_iff (pt : Proto) (r : Int) : checkReg pt r = true ↔ r < pt.maxstacksize.toNat := by
  simp [checkReg]

/-- A register-or-constant operand that passes `checkArgMode` is in range. -/
theorem accessRK_inBounds {pt : Proto} {r : Nat} (checked : checkArgMode pt r .argK = true) :
    (accessRK r).InBounds pt := by
  unfold accessRK
  simp only [checkArgMode] at checked
  split
  · rename_i constant
    simp only [constant, if_true, decide_eq_true_eq] at checked
    exact ⟨by simp, by simpa using checked, by simp, by simp⟩
  · rename_i register
    simp only [register, Bool.false_eq_true, if_false, checkReg_iff] at checked
    rw [inBounds_regs]
    simpa using checked

/-- The frame has room for the copies `OP_TFORLOOP` makes at its call base. -/
def IteratorRoom (pt : Proto) (i : Instruction) : Prop :=
  opcode? i = some .tforloop → getArgA i + 5 < pt.maxstacksize.toNat

/-- The words that `OP_CLOSURE` consumes are scanned like any other instruction, so what they
capture is in range. -/
theorem captures_inBounds {pt : Proto} (accepted : checkcode pt = true) {pc : Nat}
    (decoded : opcode? (pt.instr pc) = some .closure)
    (checks : opChecks pt pc (pt.instr pc) .closure = true) :
    ∀ w ∈ captures pt pc (pt.nestedNups (getArgBx (pt.instr pc))), (accessCapture w).InBounds pt := by
  simp only [opChecks, operandB, opmodes, Int.toNat_natCast, Bool.and_eq_true, List.all_eq_true,
    List.mem_range, Bool.or_eq_true, hasOpcode, beq_iff_eq] at checks
  obtain ⟨⟨_, fitsDecided⟩, pseudo⟩ := checks
  have fits := of_decide_eq_true fitsDecided
  -- a pseudo-instruction follows `OP_CLOSURE` or another pseudo-instruction, so it is no count word
  have real : ∀ j, j < pt.nestedNups (getArgBx (pt.instr pc)) → countWord pt (pc + (j + 1)) = false := by
    intro j bound
    cases j with
    | zero => exact countWord_succ decoded (by decide)
    | succ j =>
      rcases pseudo j (by omega) with getupval | move
      · exact countWord_succ getupval (by decide)
      · exact countWord_succ move (by decide)
  intro w member
  simp only [captures, List.mem_map, List.mem_range] at member
  obtain ⟨j, bound, rfl⟩ := member
  have place : pc + 1 + j = pc + (j + 1) := by omega
  rw [place]
  have scanned := checkcode_stepChecks accepted (by omega : pc + (j + 1) < pt.sizecode) (real j bound)
  rcases pseudo j bound with getupval | move
  · rw [stepChecks_iff getupval] at scanned
    have index := scanned.2.2.2
    simp only [opChecks, operandB, opmodes] at index
    simp only [accessCapture, hasOpcode, getupval, beq_self_eq_true, if_true]
    exact ⟨by simp, by simp, by simpa using index, by simp⟩
  · rw [stepChecks_iff move] at scanned
    have register := scanned.2.1
    simp only [operandChecks, opmodes, checkArgMode, Bool.and_eq_true, checkReg_iff] at register
    have notUpvalue : hasOpcode (pt.instr (pc + (j + 1))) .getupval = false := by simp [hasOpcode, move]
    simp only [accessCapture, notUpvalue, Bool.false_eq_true, if_false, inBounds_regs]
    simpa using register.1

/-- Instructions other than `OP_TFORLOOP` and `OP_CLOSURE`: the tests on the operands and those of
the `switch` cover every access. -/
theorem accesses_inBounds_plain {pt : Proto} {pc : Nat} {i : Instruction} {op : OpCode}
    (decoded : opcode? i = some op) (iterator : op ≠ .tforloop) (closure : op ≠ .closure)
    (register : getArgA i < pt.maxstacksize.toNat) (operands : operandChecks pt pc i op = true)
    (special : opChecks pt pc i op = true) : (accesses pt pc i).InBounds pt := by
  simp only [accesses, decoded]
  cases op with
  | tforloop => exact absurd rfl iterator
  | closure => exact absurd rfl closure
  | move | unm | not | len | testset =>
    simp only [operandChecks, opmodes, checkArgMode, Bool.and_eq_true, checkReg_iff] at operands
    rw [inBounds_regs]
    simp only [List.forall_mem_cons, List.not_mem_nil, false_imp_iff, implies_true, and_true]
    omega
  | loadk | getglobal | setglobal =>
    simp only [operandChecks, opmodes, bne_self_eq_false, Bool.false_or, decide_eq_true_eq] at operands
    exact ⟨by simpa using register, by simpa using operands, by simp, by simp⟩
  | loadbool | newtable | test | close =>
    rw [inBounds_regs]
    simpa using register
  | loadnil =>
    simp only [operandChecks, opmodes, checkArgMode, Bool.and_eq_true, checkReg_iff] at operands
    rw [inBounds_regs]
    intro r member
    simp only [List.mem_cons, List.mem_range'_1] at member
    omega
  | getupval | setupval =>
    have index := of_decide_eq_true special
    simp only [operandB, opmodes] at index
    exact ⟨by simpa using register, by simp, by simpa using index, by simp⟩
  | gettable =>
    simp only [operandChecks, opmodes, Bool.and_eq_true] at operands
    have table := (checkReg_iff pt _).mp operands.1
    rw [inBounds_append, inBounds_regs]
    refine ⟨?_, accessRK_inBounds operands.2⟩
    simp only [List.forall_mem_cons, List.not_mem_nil, false_imp_iff, implies_true, and_true]
    omega
  | settable | add | sub | mul | div | mod | pow =>
    simp only [operandChecks, opmodes, Bool.and_eq_true] at operands
    rw [inBounds_append, inBounds_append, inBounds_regs]
    exact ⟨⟨by simpa using register, accessRK_inBounds operands.1⟩, accessRK_inBounds operands.2⟩
  | self =>
    simp only [operandChecks, opmodes, Bool.and_eq_true] at operands
    have object := (checkReg_iff pt _).mp operands.1
    have copy := (checkReg_iff pt _).mp special
    rw [inBounds_append, inBounds_regs]
    refine ⟨?_, accessRK_inBounds operands.2⟩
    simp only [List.forall_mem_cons, List.not_mem_nil, false_imp_iff, implies_true, and_true]
    omega
  | concat =>
    simp only [operandChecks, opmodes, checkArgMode, Bool.and_eq_true, checkReg_iff] at operands
    rw [inBounds_append, inBounds_regs, inBounds_range]
    refine ⟨by simpa using register, ?_⟩
    omega
  | jmp => exact ⟨by simp, by simp, by simp, by simp⟩
  | eq | lt | le =>
    simp only [operandChecks, opmodes, Bool.and_eq_true] at operands
    rw [inBounds_append]
    exact ⟨accessRK_inBounds operands.1, accessRK_inBounds operands.2⟩
  | call =>
    simp only [opChecks, operandB, operandC, opmodes, Bool.and_eq_true, Bool.or_eq_true, beq_iff_eq,
      checkReg_iff] at special
    obtain ⟨arguments, results⟩ := special
    rw [inBounds_append, inBounds_append, inBounds_regs, inBounds_range, inBounds_range]
    refine ⟨⟨by simpa using register, by omega⟩, ?_⟩
    split at results
    · omega
    · simp only [Bool.or_eq_true, beq_iff_eq, checkReg_iff] at results
      omega
  | tailcall =>
    simp only [opChecks, operandB, operandC, opmodes, Bool.and_eq_true, Bool.or_eq_true, beq_iff_eq,
      checkReg_iff] at special
    rw [inBounds_append, inBounds_regs, inBounds_range]
    refine ⟨by simpa using register, ?_⟩
    omega
  | «return» =>
    simp only [opChecks, Bool.or_eq_true, Bool.not_eq_true', decide_eq_false_iff_not, checkReg_iff] at special
    simp only [operandB, opmodes] at special
    rw [inBounds_range]
    omega
  | forloop | forprep =>
    have limit := (checkReg_iff pt _).mp special
    rw [inBounds_range]
    omega
  | setlist =>
    simp only [opChecks, Bool.and_eq_true, Bool.or_eq_true, Bool.not_eq_true', decide_eq_false_iff_not,
      checkReg_iff] at special
    simp only [operandB, opmodes] at special
    rw [inBounds_append, inBounds_regs, inBounds_range]
    refine ⟨by simpa using register, ?_⟩
    omega
  | vararg =>
    simp only [opChecks, operandB, opmodes, Bool.and_eq_true, checkReg_iff] at special
    rw [inBounds_range]
    omega

/-- At a scanned position every fixed-offset access is in range, exactly when the iterator call of
an `OP_TFORLOOP` has room. -/
theorem accesses_inBounds_iff {pt : Proto} (accepted : checkcode pt = true) {pc : Nat}
    (inside : pc < pt.sizecode) (real : countWord pt pc = false) :
    (accesses pt pc (pt.instr pc)).InBounds pt ↔ IteratorRoom pt (pt.instr pc) := by
  have checks := checkcode_stepChecks accepted inside real
  cases decoded : opcode? (pt.instr pc) with
  | none => simp [stepChecks, decoded] at checks
  | some op =>
    rw [stepChecks_iff decoded, checkReg_iff] at checks
    obtain ⟨register, operands, _, special⟩ := checks
    have registerA : getArgA (pt.instr pc) < pt.maxstacksize.toNat := by exact_mod_cast register
    unfold IteratorRoom
    by_cases iterator : op = .tforloop
    · subst iterator
      simp only [opChecks, operandC, opmodes, Bool.and_eq_true, checkReg_iff] at special
      simp only [accesses, decoded, inBounds_append, inBounds_range, forall_const]
      omega
    · simp only [decoded, Option.some.injEq, iterator, false_imp_iff, iff_true]
      by_cases closure : op = .closure
      · subst closure
        have nested := special
        simp only [opChecks, operandB, opmodes, Bool.and_eq_true] at nested
        have index := of_decide_eq_true nested.1.1
        simp only [accesses, decoded, inBounds_foldl]
        refine ⟨⟨by simpa using registerA, by simp, by simp, ?_⟩, captures_inBounds accepted decoded special⟩
        simpa using index
      · exact accesses_inBounds_plain decoded iterator closure registerA operands special

/-- In every run that keeps to the scanned positions, the instruction a frame of an accepted
prototype executes stays inside its frame, constants, upvalues and nested functions exactly when it
is not an `OP_TFORLOOP` without room for its call. -/
theorem executed_inBounds_iff_iteratorRoom (pt : Proto) (s : List Frame) (run : RunFrom SkipChecked pt s) :
    ∀ fr ∈ s, checkcode fr.proto = true → ∀ i, fr.instr? = some i →
      ((accesses fr.proto fr.pc.toNat i).InBounds fr.proto ↔ IteratorRoom fr.proto i) := by
  intro fr member accepted i fetched
  obtain ⟨nonneg, inside, real⟩ := allPlaced_run run fr member accepted
  obtain ⟨pt, pc⟩ := fr
  obtain ⟨pc, rfl⟩ := Int.eq_ofNat_of_zero_le nonneg
  obtain rfl := fetched_word fetched
  exact accesses_inBounds_iff accepted (Int.ofNat_lt.mp inside) real

/-- A generic `for` loop over one variable in a frame of `size` registers. -/
def genericFor (size : UInt8) : Proto :=
  { (default : Proto) with
    code := [createABC OpCode.tforloop.toNat 0 0 1, createABx OpCode.jmp.toNat 0 (maxArgSBx - 2),
      createABC OpCode.return.toNat 0 1 0]
    maxstacksize := size }

theorem executed_inBounds_genericFor :
    checkcode (genericFor 6) = true ∧
      (accesses (genericFor 6) 0 (createABC OpCode.tforloop.toNat 0 0 1)).InBounds (genericFor 6) := by
  have accepted : checkcode (genericFor 6) = true := by decide
  refine ⟨accepted, ?_⟩
  have room : IteratorRoom (genericFor 6) (createABC OpCode.tforloop.toNat 0 0 1) := fun _ => by decide
  exact (executed_inBounds_iff_iteratorRoom (genericFor 6) [⟨genericFor 6, 0⟩] .refl ⟨genericFor 6, 0⟩
    (List.mem_singleton_self _) accepted _ (by decide)).mpr room

/-- The checker accepts the same loop in a frame of four registers, where the call base reaches
`R(5)`. -/
theorem accepted_access_outside :
    checkcode (genericFor 4) = true ∧
      ∃ s, RunFrom (fun _ => True) (genericFor 4) s ∧ ∃ fr ∈ s, fr.proto = genericFor 4 ∧
        ∃ i, fr.instr? = some i ∧ ¬ (accesses fr.proto fr.pc.toNat i).InBounds fr.proto := by
  refine ⟨by decide, [⟨genericFor 4, 0⟩], .refl, ⟨genericFor 4, 0⟩, List.mem_singleton_self _, rfl,
    createABC OpCode.tforloop.toNat 0 0 1, by decide, fun bounds => ?_⟩
  have outside := bounds.regs 5 (by decide)
  exact absurd outside (by decide)

end Gafq
