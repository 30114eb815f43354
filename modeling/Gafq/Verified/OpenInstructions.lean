import Gafq.Activation
import Gafq.Verified.CheckcodeSoundness

/-! # Open instructions in checked code

The checker asks that an instruction with an open number of results is followed by one that takes
its operands up to `L->top`.  Two things it does not ask: that the second one starts to take where
the first one can have left its results, and that `OP_TAILCALL` has `C = 0`, without which the
results that a C function called by it leaves open are not followed by anything.  `Move.Checked`
adds them as conditions on the moves of a run, together with the skip of `OP_LOADBOOL` and with the
values that are left on the stack when a coroutine is resumed after a hook has yielded.

In a run whose moves meet the conditions every frame of an accepted prototype matches its top, and
a call or an `OP_VARARG` that breaks them is followed by an instruction that takes a negative number
of values.
-/

namespace Gafq

/-- The results of an open instruction, `n` values from register `a` on, reach the first value
that the next instruction takes. -/
def Activation.Delivers (fr : Activation) (a : Nat) (n : Int) : Prop := (firstTaken fr.following : Int) ≤ a + n

/-- What the checker leaves out, for the move that a frame of an accepted prototype makes. -/
def Move.Checked : Move → List Activation → Prop
  | .next _, fr :: _ => checkcode fr.proto = true → SkipChecked fr.toFrame ∧ ∀ i, fr.instr? = some i →
      opcode? i = some .vararg → getArgB i = 0 → fr.Delivers (getArgA i) fr.extra
  | .callC n, fr :: _ => checkcode fr.proto = true → ∀ i, fr.instr? = some i → getArgC i = 0 →
      fr.Delivers (getArgA i) n
  | .tailcallC n, fr :: _ => checkcode fr.proto = true → ∀ i, fr.instr? = some i →
      getArgC i = 0 ∧ fr.Delivers (getArgA i) n
  | .ret, fr :: caller :: _ => checkcode caller.proto = true → ∀ i j, fr.instr? = some i →
      caller.instr? = some j → getArgC j = 0 → caller.Delivers (getArgA j) (fr.results i)
  | .hookYield room n, fr :: _ => checkcode fr.proto = true → ∀ i, fr.instr? = some i →
      checkopenop i = false → n = room
  | _, _ => True

/-- A frame of an accepted prototype between two instructions. -/
structure Activation.Sound (fr : Activation) : Prop where
  placed : Placed fr.proto fr.pc
  room : fr.proto.maxstacksize.toNat ≤ fr.ciTop
  topMatches : fr.TopMatches

/-! ## The word after an open instruction -/

theorem Placed.natPc {pt : Proto} {pc : Int} (placed : Placed pt pc) :
    ∃ n : Nat, pc = n ∧ n < pt.sizecode ∧ countWord pt n = false := by
  obtain ⟨n, rfl⟩ := Int.eq_ofNat_of_zero_le placed.nonneg
  exact ⟨n, rfl, Int.ofNat_lt.mp placed.inside, placed.instruction⟩

theorem Frame.instr?_natCast {pt : Proto} {pc : Nat} (inside : pc < pt.sizecode) :
    (⟨pt, pc⟩ : Frame).instr? = some (pt.instr pc) := by
  have bound : pc < pt.code.length := inside
  simp [Frame.instr?, Proto.instr, bound]

/-- The register `A` of a checked instruction is in the frame. -/
theorem getArgA_lt_maxstacksize {pt : Proto} (accepted : checkcode pt = true) {pc : Nat}
    (inside : pc < pt.sizecode) (real : countWord pt pc = false) :
    getArgA (pt.instr pc) < pt.maxstacksize.toNat := by
  have checks := checkcode_stepChecks accepted inside real
  cases decoded : opcode? (pt.instr pc) with
  | none => simp [stepChecks, decoded] at checks
  | some op =>
    rw [stepChecks_iff decoded] at checks
    have register := checks.1
    simp only [checkReg, decide_eq_true_eq] at register
    exact_mod_cast register

/-- An instruction that leaves its results open. -/
def opensTop (i : Instruction) : Bool :=
  match opcode? i with
  | some .call | some .tailcall => getArgC i == 0
  | some .vararg => getArgB i == 0
  | _ => false

theorem checkopenop_following {pt : Proto} (accepted : checkcode pt = true) {pc : Nat}
    (inside : pc < pt.sizecode) (real : countWord pt pc = false) (opens : opensTop (pt.instr pc) = true) :
    checkopenop (pt.instr (pc + 1)) = true := by
  have checks := checkcode_stepChecks accepted inside real
  cases decoded : opcode? (pt.instr pc) with
  | none => simp [opensTop, decoded] at opens
  | some op =>
    rw [stepChecks_iff decoded] at checks
    have special := checks.2.2.2
    cases op with
    | call | tailcall =>
      simp only [opensTop, decoded, beq_iff_eq] at opens
      simp only [opChecks, operandC, opmodes, opens, Bool.and_eq_true] at special
      simpa using special.2
    | vararg =>
      simp only [opensTop, decoded, beq_iff_eq] at opens
      simp only [opChecks, operandB, opmodes, opens, Bool.and_eq_true] at special
      simpa using special.1.2
    | _ => simp [opensTop, decoded] at opens

/-! ## Frames that match their top -/

/-- Nothing is left open. -/
theorem Activation.sound_settled {fr : Activation} (accepted : checkcode fr.proto = true)
    (placed : Placed fr.proto fr.pc) (room : fr.proto.maxstacksize.toNat ≤ fr.ciTop)
    (settled : fr.top = fr.ciTop) : fr.Sound := by
  refine ⟨placed, room, fun i fetched => ⟨.inl settled, fun _ => ?_⟩⟩
  obtain ⟨⟨pt, pc⟩, top, ciTop, extra, fresh⟩ := fr
  obtain ⟨pc, rfl, inside, real⟩ := placed.natPc
  obtain rfl := fetched_word fetched
  have register := getArgA_lt_maxstacksize accepted inside real
  have first : firstTaken (pt.instr pc) ≤ getArgA (pt.instr pc) + 1 := by
    unfold firstTaken
    split <;> omega
  simp only [Activation.taken] at settled room register ⊢
  omega

/-- An open instruction at `pc` has left its results, and the next one takes them. -/
theorem Activation.sound_open {fr : Activation} {pc : Nat} {top : Int} (accepted : checkcode fr.proto = true)
    (room : fr.proto.maxstacksize.toNat ≤ fr.ciTop) (here : fr.pc = pc) (inside : pc < fr.proto.sizecode)
    (real : countWord fr.proto pc = false) (opens : opensTop (fr.proto.instr pc) = true)
    (delivered : (firstTaken fr.following : Int) ≤ top) :
    ({ fr with pc := fr.pc + 1, top } : Activation).Sound := by
  obtain ⟨⟨pt, _⟩, _, ciTop, extra, fresh⟩ := fr
  subst here
  have taking := checkopenop_following accepted inside real opens
  have placed : Placed pt (pc + 1) := by
    cases decoded : opcode? (pt.instr pc) with
    | none => simp [opensTop, decoded] at opens
    | some op =>
      refine placed_succ accepted inside decoded ?_ ?_ <;> rintro rfl <;> simp [opensTop, decoded] at opens
  refine ⟨placed, room, fun i fetched => ?_⟩
  obtain rfl : i = pt.instr (pc + 1) := fetched_word fetched
  refine ⟨.inr taking, fun _ => ?_⟩
  simp only [Frame.following, Int.toNat_natCast] at delivered
  simp only [Activation.taken]
  omega

/-- If the results do not reach, the next instruction takes a negative number of values. -/
theorem Activation.not_topMatches_open {fr : Activation} {pc : Nat} {top : Int}
    (accepted : checkcode fr.proto = true) (here : fr.pc = pc) (inside : pc < fr.proto.sizecode)
    (real : countWord fr.proto pc = false) (opens : opensTop (fr.proto.instr pc) = true)
    (short : ¬ (firstTaken fr.following : Int) ≤ top) :
    ¬ ({ fr with pc := fr.pc + 1, top } : Activation).TopMatches := by
  obtain ⟨⟨pt, _⟩, _, ciTop, extra, fresh⟩ := fr
  subst here
  have taking := checkopenop_following accepted inside real opens
  have more : pc + 1 < pt.sizecode := by
    refine following_inside accepted inside fun returns => ?_
    simp [opensTop, returns] at opens
  intro topMatches
  have nonneg := (topMatches _ (Frame.instr?_natCast more)).2 taking
  simp only [Frame.following, Int.toNat_natCast] at short
  simp only [Activation.taken] at nonneg
  omega

theorem Activation.start_sound {callee : Proto} (actual : Int) (fresh : Bool)
    (accepted : checkcode callee = true) : (Activation.start callee actual fresh).Sound :=
  sound_settled accepted (placed_start accepted) (Int.le_refl _) rfl

/-! ## One move -/

section Frame

variable {fr : Activation} {i : Instruction}

/-- A sound frame, with its position as a natural number. -/
theorem Activation.Sound.fetched (sound : fr.Sound) (fetched : fr.instr? = some i) :
    ∃ pc : Nat, fr.pc = pc ∧ pc < fr.proto.sizecode ∧ countWord fr.proto pc = false ∧ i = fr.proto.instr pc := by
  obtain ⟨pc, here, inside, real⟩ := sound.placed.natPc
  obtain ⟨⟨pt, _⟩, _, _, _, _⟩ := fr
  subst here
  exact ⟨pc, rfl, inside, real, fetched_word fetched⟩

theorem Activation.Sound.completeCall {n : Int} (sound : fr.Sound) (accepted : checkcode fr.proto = true)
    (fetched : fr.instr? = some i) (op : opcode? i = some .call)
    (delivers : getArgC i = 0 → fr.Delivers (getArgA i) n) : (fr.completeCall i n).Sound := by
  obtain ⟨pc, here, inside, real, rfl⟩ := sound.fetched fetched
  unfold Activation.completeCall
  by_cases isOpen : getArgC (fr.proto.instr pc) = 0
  · rw [if_pos isOpen]
    refine sound_open accepted sound.room here inside real ?_ (delivers isOpen)
    simp [opensTop, op, isOpen]
  · rw [if_neg isOpen]
    refine sound_settled accepted ?_ sound.room rfl
    rw [here]
    exact placed_succ accepted inside op (by decide) (by decide)

theorem Activation.Sound.completeTailcall {n : Int} (sound : fr.Sound) (accepted : checkcode fr.proto = true)
    (fetched : fr.instr? = some i) (op : opcode? i = some .tailcall) (isOpen : getArgC i = 0)
    (delivers : fr.Delivers (getArgA i) n) : (fr.completeTailcall i n).Sound := by
  obtain ⟨pc, here, inside, real, rfl⟩ := sound.fetched fetched
  refine sound_open accepted sound.room here inside real ?_ delivers
  simp [opensTop, op, isOpen]

/-- An instruction that is no call, no return and no open `OP_VARARG` leaves the top settled. -/
theorem Activation.Sound.settledTop (sound : fr.Sound) (fetched : fr.instr? = some i)
    (plain : opcode? i ≠ some .call ∧ opcode? i ≠ some .tailcall ∧ opcode? i ≠ some .return)
    (closed : ¬ (opcode? i = some .vararg ∧ getArgB i = 0)) : fr.settledTop i = fr.ciTop := by
  have topMatches := (sound.topMatches i fetched).1
  unfold Activation.settledTop
  cases decoded : opcode? i with
  | none => simpa [checkopenop, decoded] using topMatches
  | some op =>
    rw [decoded] at plain closed
    cases op with
    | call | tailcall | «return» => simp at plain
    | setlist =>
      simp only
      split
      · rfl
      · rename_i fixed
        simpa [checkopenop, decoded, fixed] using topMatches
    | tforloop => rfl
    | vararg =>
      have fixed : getArgB i ≠ 0 := by simpa using closed
      simp only [fixed, if_false]
      simpa [checkopenop, decoded] using topMatches
    | _ => simpa [checkopenop, decoded] using topMatches

theorem Activation.Sound.next (sound : fr.Sound) (accepted : checkcode fr.proto = true) (taken : Bool)
    (fetched : fr.instr? = some i)
    (plain : opcode? i ≠ some .call ∧ opcode? i ≠ some .tailcall ∧ opcode? i ≠ some .return)
    (skip : SkipChecked fr.toFrame)
    (delivers : opcode? i = some .vararg → getArgB i = 0 → fr.Delivers (getArgA i) fr.extra) :
    ({ fr with pc := nextPc fr.toFrame i taken, top := fr.settledTop i } : Activation).Sound := by
  obtain ⟨pc, here, inside, real, rfl⟩ := sound.fetched fetched
  by_cases isOpen : opcode? (fr.proto.instr pc) = some .vararg ∧ getArgB (fr.proto.instr pc) = 0
  · have position : nextPc fr.toFrame (fr.proto.instr pc) taken = fr.pc + 1 := by simp [nextPc, isOpen.1]
    rw [position]
    refine sound_open accepted sound.room here inside real (by simp [opensTop, isOpen.1, isOpen.2]) ?_
    have delivered := delivers isOpen.1 isOpen.2
    simpa [Activation.settledTop, isOpen.1, isOpen.2, Activation.Delivers] using delivered
  · refine sound_settled accepted ?_ sound.room (sound.settledTop fetched plain isOpen)
    obtain ⟨⟨pt, _⟩, _, _, _, _⟩ := fr
    subst here
    exact placed_nextPc accepted inside real fetched plain.2.2 skip taken

end Frame

/-! ## Whole runs -/

/-- Every frame of an accepted prototype is sound. -/
def AllSound (s : List Activation) : Prop := ∀ fr ∈ s, checkcode fr.proto = true → fr.Sound

theorem AllSound.cons {fr : Activation} {rest : List Activation}
    (first : checkcode fr.proto = true → fr.Sound) (others : AllSound rest) : AllSound (fr :: rest) := by
  intro other member accepted
  rcases List.mem_cons.mp member with rfl | member
  · exact first accepted
  · exact others other member accepted

theorem AllSound.of_subset {s t : List Activation} (all : AllSound s) (subset : t ⊆ s) : AllSound t :=
  fun fr member accepted => all fr (subset member) accepted

theorem allSound_moves {e : Move} {s t : List Activation} (moves : Moves e s t) (checked : e.Checked s)
    (all : AllSound s) : AllSound t := by
  cases moves with
  | next taken fetched plain =>
    refine .cons (fun accepted => ?_) (all.of_subset (List.subset_cons_self ..))
    exact (all _ (List.mem_cons_self ..) accepted).next accepted taken fetched plain
      (checked accepted).1 ((checked accepted).2 _ fetched)
  | callC n fetched op =>
    refine .cons (fun accepted => ?_) (all.of_subset (List.subset_cons_self ..))
    exact (all _ (List.mem_cons_self ..) accepted).completeCall accepted fetched op
      (checked accepted _ fetched)
  | tailcallC n fetched op =>
    refine .cons (fun accepted => ?_) (all.of_subset (List.subset_cons_self ..))
    obtain ⟨isOpen, delivers⟩ := checked accepted _ fetched
    exact (all _ (List.mem_cons_self ..) accepted).completeTailcall accepted fetched op isOpen delivers
  | callGafq callee hole fetched op => exact .cons (Activation.start_sound _ _) all
  | tailcallGafq callee hole fetched op =>
    exact .cons (Activation.start_sound _ _) (all.of_subset (List.subset_cons_self ..))
  | nested callee actual fetched => exact .cons (Activation.start_sound _ _) all
  | @ret fr caller i j rest fetched op reentered calling call =>
    have below : AllSound (caller :: rest) := all.of_subset (List.subset_cons_self ..)
    refine .cons (fun accepted => ?_) (below.of_subset (List.subset_cons_self ..))
    exact (below _ (List.mem_cons_self ..) accepted).completeCall accepted calling call
      (checked accepted i j fetched calling)
  | retFresh fetched op fresh => exact all.of_subset (List.subset_cons_self ..)
  | raise fresh =>
    exact all.of_subset fun other member => List.mem_append_right _ (List.mem_cons_of_mem _ member)
  | @hookYield fr i rest room n fetched reserved =>
    refine .cons (fun accepted => ?_) (all.of_subset (List.subset_cons_self ..))
    obtain ⟨placed, large, topMatches⟩ := all fr (List.mem_cons_self ..) accepted
    refine ⟨placed, Int.le_trans large (Int.le_max_left _ _), fun i' fetched' => ?_⟩
    obtain rfl : i = i' := Option.some.inj (fetched.symm.trans fetched')
    obtain ⟨settled, nonneg⟩ := topMatches i fetched
    simp only [Activation.taken] at nonneg ⊢
    cases isOpen : checkopenop i with
    | true =>
      have := nonneg isOpen
      exact ⟨.inr rfl, fun _ => by omega⟩
    | false =>
      have same := checked accepted i fetched isOpen
      have := settled.resolve_right (by simp [isOpen])
      exact ⟨.inl (by omega), fun impossible => by simp at impossible⟩

/-- A run of a call of `pt` with `actual` arguments whose moves all meet `P`. -/
inductive Run (P : Move → List Activation → Prop) (pt : Proto) (actual : Nat) : List Activation → Prop
  | start : Run P pt actual [.start pt actual true]
  | move {e : Move} {s t : List Activation} (run : Run P pt actual s) (meets : P e s)
      (moves : Moves e s t) : Run P pt actual t

theorem allSound_run {pt : Proto} {actual : Nat} {s : List Activation} (run : Run Move.Checked pt actual s) :
    AllSound s := by
  induction run with
  | start => exact .cons (Activation.start_sound _ _) fun _ member => nomatch member
  | move _ meets moves inductionHypothesis => exact allSound_moves moves meets inductionHypothesis

/-- The moves that complete an open instruction with too few values for the next one. -/
inductive FallsShort : Move → List Activation → Prop
  | call {fr : Activation} {rest : List Activation} {i : Instruction} {n : Nat}
      (accepted : checkcode fr.proto = true) (fetched : fr.instr? = some i) (op : opcode? i = some .call)
      (isOpen : getArgC i = 0) (short : ¬ fr.Delivers (getArgA i) n) : FallsShort (.callC n) (fr :: rest)
  | tailcall {fr : Activation} {rest : List Activation} {i : Instruction} {n : Nat}
      (accepted : checkcode fr.proto = true) (fetched : fr.instr? = some i) (op : opcode? i = some .tailcall)
      (isOpen : getArgC i = 0) (short : ¬ fr.Delivers (getArgA i) n) : FallsShort (.tailcallC n) (fr :: rest)
  | vararg {fr : Activation} {rest : List Activation} {i : Instruction} {taken : Bool}
      (accepted : checkcode fr.proto = true) (fetched : fr.instr? = some i) (op : opcode? i = some .vararg)
      (isOpen : getArgB i = 0) (short : ¬ fr.Delivers (getArgA i) fr.extra) :
      FallsShort (.next taken) (fr :: rest)
  | ret {fr caller : Activation} {rest : List Activation} {i j : Instruction}
      (accepted : checkcode caller.proto = true) (fetched : fr.instr? = some i)
      (calling : caller.instr? = some j) (op : opcode? j = some .call)
      (isOpen : getArgC j = 0) (short : ¬ caller.Delivers (getArgA j) (fr.results i)) :
      FallsShort .ret (fr :: caller :: rest)

theorem Activation.Sound.not_topMatches {fr : Activation} {i : Instruction} {top : Int} (sound : fr.Sound)
    (accepted : checkcode fr.proto = true) (fetched : fr.instr? = some i) (opens : opensTop i = true)
    (short : ¬ (firstTaken fr.following : Int) ≤ top) :
    ¬ ({ fr with pc := fr.pc + 1, top } : Activation).TopMatches := by
  obtain ⟨pc, here, inside, real, rfl⟩ := sound.fetched fetched
  exact not_topMatches_open accepted here inside real opens short

theorem fallsShort_breaks {e : Move} {s t : List Activation} (all : AllSound s) (moves : Moves e s t)
    (short : FallsShort e s) : ∃ fr ∈ t, checkcode fr.proto = true ∧ ¬ fr.TopMatches := by
  cases short with
  | @call fr rest i n accepted fetched op isOpen short =>
    cases moves with
    | callC _ fetched' _ =>
      obtain rfl := Option.some.inj (fetched.symm.trans fetched')
      refine ⟨_, List.mem_cons_self .., accepted, ?_⟩
      rw [Activation.completeCall, if_pos isOpen]
      exact (all fr (List.mem_cons_self ..) accepted).not_topMatches accepted fetched
        (by simp [opensTop, op, isOpen]) short
  | @tailcall fr rest i n accepted fetched op isOpen short =>
    cases moves with
    | tailcallC _ fetched' _ =>
      obtain rfl := Option.some.inj (fetched.symm.trans fetched')
      refine ⟨_, List.mem_cons_self .., accepted, ?_⟩
      exact (all fr (List.mem_cons_self ..) accepted).not_topMatches accepted fetched
        (by simp [opensTop, op, isOpen]) short
  | @vararg fr rest i taken accepted fetched op isOpen short =>
    cases moves with
    | next _ fetched' _ =>
      obtain rfl := Option.some.inj (fetched.symm.trans fetched')
      refine ⟨_, List.mem_cons_self .., accepted, ?_⟩
      have position : nextPc fr.toFrame i taken = fr.pc + 1 := by simp [nextPc, op]
      have top : fr.settledTop i = getArgA i + fr.extra := by simp [Activation.settledTop, op, isOpen]
      rw [position, top]
      exact (all fr (List.mem_cons_self ..) accepted).not_topMatches accepted fetched
        (by simp [opensTop, op, isOpen]) short
  | @ret fr caller rest i j accepted fetched calling op isOpen short =>
    cases moves with
    | ret fetched' _ _ calling' _ =>
      obtain rfl := Option.some.inj (fetched.symm.trans fetched')
      obtain rfl := Option.some.inj (calling.symm.trans calling')
      refine ⟨_, List.mem_cons_self .., accepted, ?_⟩
      rw [Activation.completeCall, if_pos isOpen]
      exact (all caller (List.mem_cons_of_mem _ (List.mem_cons_self ..)) accepted).not_topMatches accepted
        calling (by simp [opensTop, op, isOpen]) short

/-- In every run whose moves meet what the checker leaves out, each frame of an accepted prototype
has its top at `ci->top` or is about to take what was left open, and takes no negative number of
values; a move that leaves too few values for the next instruction breaks this. -/
theorem run_topMatches (pt : Proto) (actual : Nat) (s : List Activation) (run : Run Move.Checked pt actual s) :
    (∀ fr ∈ s, checkcode fr.proto = true → fr.TopMatches) ∧
    ∀ e t, Moves e s t → FallsShort e s → ∃ fr ∈ t, checkcode fr.proto = true ∧ ¬ fr.TopMatches := by
  have all := allSound_run run
  exact ⟨fun fr member accepted => (all fr member accepted).topMatches,
    fun _ _ moves short => fallsShort_breaks all moves short⟩

/-- `f(g())`: a call with open results from register `a`, and the call that takes them from
register 0 on. -/
def passOn (a : Nat) : Proto :=
  { (default : Proto) with
    code := [createABC OpCode.call.toNat a 1 0, createABC OpCode.call.toNat 0 0 1,
      createABC OpCode.return.toNat 0 1 0]
    maxstacksize := 4 }

/-- The frame of `passOn 1` after `g`, a C function, has returned two values. -/
def passOnAfter : Activation := { Activation.start (passOn 1) 0 true with pc := 1, top := 3 }

theorem run_topMatches_passOn : checkcode (passOn 1) = true ∧ passOnAfter.TopMatches := by
  have accepted : checkcode (passOn 1) = true := by decide
  have fetched : (Activation.start (passOn 1) 0 true).instr? = some (createABC OpCode.call.toNat 1 1 0) := by decide
  have run : Run Move.Checked (passOn 1) 0 [passOnAfter] := by
    refine .move .start ?_ (.callC 2 fetched (by decide))
    intro _ i fetched' _
    obtain rfl := Option.some.inj (fetched.symm.trans fetched')
    show ((_ : Nat) : Int) ≤ _
    decide
  exact ⟨accepted, (run_topMatches (passOn 1) 0 _ run).1 _ (List.mem_singleton_self _) accepted⟩

/-- The checker accepts `passOn 0`.  When the first function returns nothing, the second call finds
`L->top` on its function, one position before its first argument. -/
theorem accepted_takes_negative :
    checkcode (passOn 0) = true ∧
      ∃ s, Run (fun _ _ => True) (passOn 0) 0 s ∧ ∃ fr ∈ s, fr.proto = passOn 0 ∧ ¬ fr.TopMatches := by
  have fetched : (Activation.start (passOn 0) 0 true).instr? = some (createABC OpCode.call.toNat 0 1 0) := by decide
  refine ⟨by decide, _, .move .start trivial (.callC 0 fetched (by decide)), _, List.mem_singleton_self _, rfl, ?_⟩
  intro topMatches
  have nonneg := (topMatches (createABC OpCode.call.toNat 0 0 1) (by decide)).2 (by decide)
  exact absurd nonneg (by decide)

end Gafq
