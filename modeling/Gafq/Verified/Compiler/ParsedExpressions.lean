import Gafq.Verified.Compiler.Parsing

/-! # Rules for expressions

A rule for an expression gives its descriptor, with the lists and the registers that it holds.
-/

namespace Gafq.Compiler

open Lexer Code Base
open Gafq.Parser (tok getunopr getbinopr leftPriority rightPriority unaryPriority BinOpr tkFunction)

variable {N : Type} [GafqNumber N] {env : Env N} {fuel : Nat} {rules : Rules N}

/-- The recursive rules keep what is held around them. -/
structure Sound (rules : Rules N) : Prop where
  subexpr : ∀ (limit : Nat) (G : List (FuncState N → Prop)) (F : CodeFrame) (L : Multiset Int) (k : Nat), F.last →
    Ensures (Parses G (Holds F L k)) (rules.subexpr limit) (fun r => Parses G (Gives F L k r.1)) Failed
  chunk : ∀ (G : List (FuncState N → Prop)) (F : CodeFrame) (L : Multiset Int), F.last →
    Ensures (Parses G (Idle F L)) rules.chunk (fun _ => Parses G (Idle F L)) Failed

variable {G : List (FuncState N → Prop)} {F : CodeFrame} {L : Multiset Int} {k : Nat} {v : ExpDesc N}

section

variable (sound : Sound rules) (last : F.last)

include sound last

omit [GafqNumber N] in
theorem expr_parses : Ensures (Parses G (Holds F L k)) (expr rules) (fun e => Parses G (Gives F L k e)) Failed :=
  Ensures.map (sound.subexpr 0 G F L k last)

theorem yindex_parses : Ensures (Parses G (Holds F L k)) (yindex env rules) (fun e => Parses G (Gives F L k e)) Failed := by
  refine .bind next_parses fun _ => .bind (expr_parses sound last) fun e => .bind (gen_parses exp2val_holds) fun e => ?_
  exact parses_assume fun _ => .bind checknext_parses fun _ _ parses => parses

end

theorem name_settled {i : Int} : Settled (initExp .vk i : ExpDesc N) := ⟨rfl, rfl, by simp [initExp]⟩

/-- A field of an expression. -/
theorem field_parses :
    Ensures (Parses G (Gives F L k v)) (field env v) (fun e => Parses G fun fs => Gives F L k e fs ∧ e.k.IsVariable) Failed := by
  refine .bind (gen_parses exp2anyreg_holds) fun v => parses_assume fun inReg => .bind next_parses fun _ => ?_
  refine .bind checkname_parses fun key => parses_assume ?_
  rintro ⟨i, rfl⟩
  refine gen_parses (.weaken (indexed_holds inReg) (fun fs holds => Settled.gives name_settled ?_) fun _ _ gives => gives)
  simpa [ExpDesc.regs, ExpDesc.operands, initExp] using holds

/-! ## Constructors -/

omit [GafqNumber N] in
/-- An instruction that is kept gets other sizes. -/
theorem patchPinned_parses {p : Nat} {f : Instruction → Instruction} {ls : LexState N} (same : ∀ i, opcode? (f i) = opcode? i)
    (parses : Parses G (Holds (F.pin p) L k) ls) :
    Ensures (· = ls) (gen (setCode p (f (ls.fs.code p)))) (fun _ => Parses G (Holds F L k)) Failed := by
  refine gen_at parses (.modify ?_)
  rintro _ rfl
  have quiet : Quiet ls.fs { ls.fs with lastline := ls.lastline } := .of_same rfl rfl rfl rfl rfl ⟨rfl, rfl, rfl⟩
  have free := parses.current.pinned.2
  have patched : SameJump (ls.fs.code p) (f (ls.fs.code p)) := .inr ⟨free, free_of_same (same _) free⟩
  exact setCode_holds (parses.current.unpin.quiet quiet.toMild quiet.toSameRegs) patched

section

variable (sound : Sound rules) (last : F.last) {cc : ConsControl N}

include sound last

theorem recKey_parses : Ensures (Parses G (Holds F L k)) (recKey env rules cc) (fun e => Parses G (Gives F L k e)) Failed := by
  refine .bind token_parses fun t => .ite (fun _ => ?_) fun _ => yindex_parses sound last
  refine .bind (gen_parses checklimit_tame) fun _ => .weaken checkname_parses (fun _ parses => parses) fun key ls parses => ?_
  obtain ⟨holds, i, rfl⟩ := parses.current
  exact parses.withFs (Settled.gives name_settled (by simpa [ExpDesc.regs, ExpDesc.operands, initExp] using holds))

/-- A record field frees the registers that it has used. -/
theorem recfield_parses (void : cc.v.k = .vvoid) :
    Ensures (Parses G (Holds F L k)) (recfield env rules cc) (fun cc' => Parses G fun fs => Item F L k cc' fs ∧ cc'.t = cc.t) Failed := by
  refine .get_bind fun ls parses => ?_
  have low := parses.current.room.held
  have high := parses.current.room.freereg
  refine .bind (.at_state (recKey_parses sound last) parses) fun key => .bind checknext_parses fun _ => ?_
  refine .bind (gen_parses (.weaken exp2RK_holds (fun _ gives => gives) fun r fs holds => holds.1.less (Nat.le_add_left k _))) fun rkkey => ?_
  refine .bind (expr_parses sound last) fun val => ?_
  refine .bind (gen_parses (.weaken exp2RK_holds (fun _ gives => gives) fun r fs holds => holds.1.less (Nat.le_add_left k _))) fun rkval => ?_
  refine .bind (gen_parses (.weaken (codeABC_holds (by decide)) (fun _ holds => holds) fun _ _ holds => holds.1)) fun _ => ?_
  have freed : Ensures (Holds F L k) (modify fun fs => { fs with freereg := ls.fs.freereg } : CodeM N Unit) (fun _ => Holds F L k) Stopped := by
    refine .modify fun fs holds => ?_
    have room := holds.room
    exact holds.mild ⟨rfl, rfl, rfl, List.Subset.refl _, fun _ => .refl _⟩ ⟨room.nactvar, room.locals, low, high, room.maxstacksize⟩
  exact .bind (gen_parses freed) fun _ ls parses => parses.withFs ⟨.inl ⟨void, parses.current⟩, rfl⟩

omit [GafqNumber N] in
theorem listfield_parses :
    Ensures (Parses G (Holds F L k)) (listfield rules cc) (fun cc' => Parses G fun fs => Item F L k cc' fs ∧ cc'.t = cc.t) Failed := by
  refine .bind (expr_parses sound last) fun v => .bind (gen_parses checklimit_tame) fun _ => ?_
  exact fun ls parses => parses.withFs ⟨.inr ⟨Nat.succ_ne_zero _, parses.current⟩, rfl⟩

theorem consItem_parses (void : cc.v.k = .vvoid) :
    Ensures (Parses G (Holds F L k)) (consItem env rules cc) (fun cc' => Parses G fun fs => Item F L k cc' fs ∧ cc'.t = cc.t) Failed := by
  refine .bind token_parses fun t => .ite (fun _ => ?_) fun _ => .ite (fun _ => ?_) fun _ => ?_
  · refine .bind lookahead_parses fun _ => .get_bind fun ls parses => .ite (fun _ => ?_) fun _ => ?_
    · exact .at_state (listfield_parses sound last) parses
    · exact .at_state (recfield_parses sound last void) parses
  · exact recfield_parses sound last void
  · exact listfield_parses sound last

/-- The table is in the register `cc.t.info`. -/
theorem consLoop_parses (low : k ≤ cc.t.info) (high : cc.t.info ≤ 254) :
    Ensures (Parses G (Item F L (1 + k) cc)) (consLoop env rules fuel cc)
      (fun cc' => Parses G fun fs => Item F L (1 + k) cc' fs ∧ cc'.t = cc.t) Failed := by
  induction fuel generalizing cc with
  | zero => exact fun ls parses => parses.failed
  | succ fuel inductionHypothesis =>
    refine .bind token_parses fun t => .ite (fun _ => ?_) fun _ => ?_
    · exact fun ls parses => parses.withFs ⟨parses.current, rfl⟩
    · refine .bind (gen_parses (closelistfield_holds low high)) fun cc₁ => parses_assume ?_
      rintro ⟨void, same₁⟩
      refine .bind (consItem_parses sound last void) fun cc₂ => parses_assume fun same₂ => ?_
      have same : cc₂.t = cc.t := same₂.trans same₁
      have more : Ensures (Parses G (Item F L (1 + k) cc₂)) (consLoop env rules fuel cc₂)
          (fun cc' => Parses G fun fs => Item F L (1 + k) cc' fs ∧ cc'.t = cc.t) Failed := by
        have rest := @inductionHypothesis cc₂ (same ▸ low) (same ▸ high)
        rwa [same] at rest
      have ended : Ensures (Parses G (Item F L (1 + k) cc₂)) (pure cc₂ : CompileM N (ConsControl N))
          (fun cc' => Parses G fun fs => Item F L (1 + k) cc' fs ∧ cc'.t = cc.t) Failed :=
        fun ls parses => parses.withFs ⟨parses.current, same⟩
      have again (b : Bool) : Ensures (Parses G (Item F L (1 + k) cc₂)) (if b then consLoop env rules fuel cc₂ else pure cc₂)
          (fun cc' => Parses G fun fs => Item F L (1 + k) cc' fs ∧ cc'.t = cc.t) Failed := .ite (fun _ => more) fun _ => ended
      refine .bind testnext_parses fun comma => .ite_bind (.ite (fun _ => ?_) fun _ => testnext_parses) again
      exact fun _ parses => parses

/-- The table is in a new register. -/
theorem constructor_parses :
    Ensures (Parses G (Holds F L k)) (constructor env fuel rules) (fun e => Parses G fun fs => Gives F L k e fs ∧ e.k = .vnonreloc) Failed := by
  refine .get_bind fun ls parses => ?_
  have created : Ensures (Holds F L k) (codeABC .newtable 0 0 0 : CodeM N Nat) (fun pc => Holds (F.pin pc) L k) Stopped := by
    refine .weaken (codeABC_holds (by decide)) (fun _ holds => holds) ?_
    rintro pc fs ⟨holds, coded⟩
    refine holds.pin (by have := coded.pc; omega) ?_
    rw [coded.code]
    exact free_of_opcode (opcode?_instrABC ..) (by decide)
  refine .bind (.at_state (gen_parses created) parses) fun pc => ?_
  have inRegister : Ensures (Holds (F.pin pc) L k) (exp2nextreg env (initExp .vrelocable pc))
      (fun t fs => Holds (F.pin pc) L (1 + k) fs ∧ ∃ reg, InReg t reg ∧ k ≤ reg ∧ reg ≤ 254) Stopped :=
    .weaken exp2nextreg_holds (fun _ holds => holds.relocable holds.pinned.2) fun _ _ holds => holds
  refine .bind (gen_parses inRegister) fun t => parses_assume ?_
  rintro ⟨reg, inReg, low, high⟩
  rw [← inReg.info] at low high
  refine .bind checknext_parses fun _ => ?_
  have items := @consLoop_parses _ _ env fuel rules G (F.pin pc) L k sound last ⟨initExp .vvoid 0, t, 0, 0, 0⟩ low high
  refine (items.weaken (fun ls parses => parses.withFs (.inl ⟨rfl, parses.current⟩)) fun _ _ parses => parses).bind fun cc => ?_
  refine parses_assume fun same => .bind checkMatch_parses fun _ => ?_
  refine .bind (gen_parses (lastlistfield_holds (same ▸ low) (same ▸ high))) fun cc' => .get_bind fun ls parses => ?_
  have sizes (i : Instruction) : opcode? (setArgC (setArgB i (int2fb cc'.na)) (int2fb cc'.nh)) = opcode? i := by
    rw [opcode?_setArgC, opcode?_setArgB]
  refine .bind (patchPinned_parses sizes parses) fun _ => ?_
  refine fun ls parses => parses.withFs ⟨inReg.gives (parses.current.less ?_), inReg.k⟩
  · rw [regs_of_nonreloc inReg.k]
    exact Nat.add_le_add_right (temp_le ..) k

end

/-! ## Function bodies -/

section

variable {Q : FuncState N → Prop} [Tame Q]

theorem parLoop_parses {nparams : Nat} : Ensures (Parses G Q) (parLoop env fuel nparams) (fun _ => Parses G Q) Failed := by
  induction fuel generalizing nparams with
  | zero => exact fun ls parses => parses.failed
  | succ fuel inductionHypothesis =>
    refine .bind token_parses fun t => .ite (fun _ => ?_) fun _ => .ite (fun _ => ?_) fun _ => syntaxerror_parses
    · refine .bind strCheckname_parses fun name => .bind (gen_parses newLocalvar_tame) fun _ => .bind testnext_parses fun more => ?_
      exact .ite (fun _ => inductionHypothesis) fun _ _ parses => parses
    · refine .bind next_parses fun _ => .bind newString_parses fun _ => .bind (gen_parses newLocalvar_tame) fun _ => ?_
      exact .bind (genModify_parses fun _ => .of_same rfl rfl rfl rfl rfl ⟨rfl, rfl, rfl⟩) fun _ _ parses => parses

end

theorem parlist_parses : Ensures (Parses G (Idle F L)) (parlist env fuel) (fun _ => Parses G (Idle F L)) Failed := by
  refine .bind (genModify_parses fun _ => .of_same rfl rfl rfl rfl rfl ⟨rfl, rfl, rfl⟩) fun _ => .bind token_parses fun t => ?_
  have rest (nparams : Nat) : Ensures (Parses G (Idle F L))
      (do
        gen (adjustlocalvars nparams)
        gen (modify fun fs => { fs with numparams := fs.nactvar - (fs.isVararg &&& varargHasArg) })
        let fs := (← get).fs
        gen (reserveregs fs.nactvar)) (fun _ => Parses G (Idle F L)) Failed := by
    refine .bind (gen_parses adjustlocalvars_idle) fun _ => ?_
    refine .bind (genModify_parses fun _ => .of_same rfl rfl rfl rfl rfl ⟨rfl, rfl, rfl⟩) fun _ => .get_bind fun ls parses => ?_
    have reserved : Ensures (Idle F L) (reserveregs ls.fs.nactvar : CodeM N Unit) (fun _ => Idle F L) Stopped :=
      keeps_idle fun _ _ _ => .weaken reserveregs_holds (fun _ holds => holds) fun _ _ holds => holds.less (Nat.zero_le _)
    exact .at_state (gen_parses reserved) parses
  exact .ite_bind (.ite (fun _ => parLoop_parses) fun _ _ parses => parses) rest

section

variable (sound : Sound rules)

include sound

/-- The enclosing function waits while the body is compiled. -/
theorem body_parses {needself : Bool} {line : Nat} :
    Ensures (Parses G (Holds F L k)) (body env fuel rules needself line) (fun e => Parses G (Gives F L k e)) Failed := by
  refine .bind openFunc_parses fun _ => ?_
  refine .bind (genModify_parses fun _ => .of_same rfl rfl rfl rfl rfl ⟨rfl, rfl, rfl⟩) fun _ => .bind checknext_parses fun _ => ?_
  have rest : Ensures (Parses (Holds F L k :: G) (Idle outermost 0))
      (do
        parlist env fuel
        checknext env (tok ')')
        rules.chunk
        let linenumber := (← get).linenumber
        gen (modify fun fs => { fs with lastlinedefined := linenumber })
        checkMatch env tkEnd tkFunction line
        let func ← closeFunc env
        gen (pushclosure (proto env func) func)) (fun e => Parses G (Gives F L k e)) Failed := by
    refine .bind parlist_parses fun _ => .bind checknext_parses fun _ => (sound.chunk _ outermost 0 trivial).bind fun _ => ?_
    refine .get_bind fun ls parses => ?_
    refine .bind (Ensures.at_state (genModify_parses fun _ => .of_same rfl rfl rfl rfl rfl ⟨rfl, rfl, rfl⟩) parses) fun _ => ?_
    exact .bind checkMatch_parses fun _ => .bind closeFunc_parses fun func => gen_parses pushclosure_holds
  refine .ite (fun _ => ?_) fun _ => rest
  refine .bind newString_parses fun _ => .bind (gen_parses newLocalvar_tame) fun _ => ?_
  exact .bind (gen_parses adjustlocalvars_idle) fun _ => rest

end

/-! ## Calls -/

omit [GafqNumber N] in
theorem Values.gives {m : Nat} {e : ExpDesc N} {fs : FuncState N} (values : Values F L k (m + 1) e fs) : Gives F L (m + k) e fs := by
  obtain ⟨none, -⟩ | ⟨m', isM, gives⟩ := values
  · cases none
  · cases isM
    exact gives

section

variable (sound : Sound rules) (last : F.last)

include sound last

theorem explistLoop_parses {left m : Nat} :
    Ensures (Parses G (Gives F L (m + k) v)) (explistLoop env rules left v (m + 1))
      (fun r => Parses G fun fs => Values F L k r.2 r.1 fs ∧ ∃ m, r.2 = m + 1) Failed := by
  induction left generalizing v m with
  | zero => exact fun ls parses => parses.failed
  | succ left inductionHypothesis =>
    refine .bind testnext_parses fun more => .ite (fun _ => ?_) fun _ => ?_
    · have inRegister : Ensures (Gives F L (m + k) v) (exp2nextreg env v) (fun _ => Holds F L (m + 1 + k)) Stopped :=
        .weaken exp2nextreg_holds (fun _ gives => gives) fun _ _ holds => holds.1.less (by omega)
      exact .bind (gen_parses inRegister) fun _ => .bind (expr_parses sound last) fun v => inductionHypothesis
    · exact fun ls parses => parses.withFs ⟨.inr ⟨m, rfl, parses.current⟩, m, rfl⟩

theorem explist1_parses :
    Ensures (Parses G (Holds F L k)) (explist1 env fuel rules)
      (fun r => Parses G fun fs => Values F L k r.2 r.1 fs ∧ ∃ m, r.2 = m + 1) Failed := by
  refine .bind (expr_parses sound last) fun v => ?_
  have loop := @explistLoop_parses _ _ env rules G F L k v sound last fuel 0
  rwa [Nat.zero_add] at loop

theorem callArgs_parses {line : Nat} :
    Ensures (Parses G (Holds F L k)) (callArgs env fuel rules line) (fun e => Parses G (Arguments F L k e)) Failed := by
  refine .bind token_parses fun t => .ite (fun _ => .get_bind fun ls parses => ?_) fun _ => .ite (fun _ => ?_) fun _ =>
    .ite (fun _ => .get_bind fun ls parses => ?_) fun _ => syntaxerror_parses
  · have given (r : ExpDesc N × Nat) : Ensures (Parses G fun fs => Values F L k r.2 r.1 fs ∧ ∃ m, r.2 = m + 1) (gen (setreturns r.1 multRet))
        (fun _ => Parses G (Arguments F L k r.1)) Failed := by
      refine parses_assume ?_
      rintro ⟨m, some⟩
      refine gen_parses ?_
      rw [some]
      refine .weaken openArguments_holds (fun _ values => values.gives) fun _ fs arguments => ?_
      obtain ⟨kind, holds⟩ | ⟨closed, gives⟩ := arguments
      · exact .inl ⟨kind, holds.less (Nat.le_add_left k m)⟩
      · exact .inr ⟨closed, gives.holds.less (by omega), gives.fits⟩
    have rest : Ensures (Parses G (Holds F L k))
        (do
          next env
          let args ←
            if (← token) = tok ')' then pure (initExp .vvoid 0)
            else
              let r ← explist1 env fuel rules
              gen (setreturns r.1 multRet)
              pure r.1
          checkMatch env (tok ')') (tok '(') line
          pure args) (fun e => Parses G (Arguments F L k e)) Failed := by
      refine .bind next_parses fun _ => .bind token_parses fun t => ?_
      have closed (e : ExpDesc N) : Ensures (Parses G (Arguments F L k e)) (checkMatch env (tok ')') (tok '(') line >>= fun _ => pure e)
          (fun e => Parses G (Arguments F L k e)) Failed := .bind checkMatch_parses fun _ _ parses => parses
      have none : Ensures (Parses G (Holds F L k)) (pure (initExp .vvoid 0) : CompileM N (ExpDesc N))
          (fun e => Parses G (Arguments F L k e)) Failed :=
        fun ls parses => parses.withFs (.inl ⟨.inl rfl, parses.current⟩)
      exact .ite (fun _ => none.bind closed) fun _ => .bind (explist1_parses sound last) fun r => (given r).bind fun _ => closed r.1
    refine .ite (fun _ => ?_) fun _ => rest.at_state parses
    exact .bind (.at_state syntaxerror_parses parses) fun _ => rest
  · refine .weaken (constructor_parses sound last) (fun _ parses => parses) fun e ls parses => ?_
    obtain ⟨gives, kind⟩ := parses.current
    exact parses.withFs (.inr ⟨by simp [ExpDesc.hasmultret, kind], gives⟩)
  · refine .bind (.at_state codestring_parses parses) fun args => parses_assume ?_
    rintro ⟨i, rfl⟩
    refine .bind next_parses fun _ ls parses => parses.withFs (.inr ⟨by simp [ExpDesc.hasmultret, initExp], Settled.gives name_settled ?_⟩)
    simpa [ExpDesc.regs, ExpDesc.operands, initExp] using parses.current

/-- A call of the function in the register `v.info`. -/
theorem funcargs_parses {h : Nat} (low : k ≤ v.info) (high : v.info ≤ 254) (less : k ≤ h) :
    Ensures (Parses G (Holds F L h)) (funcargs env fuel rules v) (fun e => Parses G (Gives F L k e)) Failed := by
  refine .get_bind fun ls parses => .bind (.at_state (callArgs_parses sound last) parses) fun args => ?_
  exact gen_parses (codeCall_gives low high less)

/-! ## Expressions -/

theorem prefixexp_parses : Ensures (Parses G (Holds F L k)) (prefixexp env rules) (fun e => Parses G (Gives F L k e)) Failed := by
  refine .bind token_parses fun t => .ite (fun _ => .get_bind fun ls parses => ?_) fun _ => .ite (fun _ => ?_) fun _ => syntaxerror_parses
  · refine .bind (.at_state next_parses parses) fun _ => .bind (expr_parses sound last) fun v => .bind checkMatch_parses fun _ => ?_
    exact gen_parses (.weaken dischargevars_gives (fun _ gives => gives) fun _ _ gives => gives.1)
  · exact .weaken singlevar_parses (fun _ parses => parses) fun _ ls parses => parses.withFs parses.current.1

theorem primaryLoop_parses {left : Nat} :
    Ensures (Parses G (Gives F L k v)) (primaryLoop env fuel rules left v) (fun e => Parses G (Gives F L k e)) Failed := by
  induction left generalizing v with
  | zero => exact fun ls parses => parses.failed
  | succ left inductionHypothesis =>
    refine .bind token_parses fun t => .ite (fun _ => ?_) fun _ => .ite (fun _ => ?_) fun _ => .ite (fun _ => ?_) fun _ => .ite (fun _ => ?_) fun _ => ?_
    · exact .bind field_parses fun v => parses_assume fun _ => inductionHypothesis
    · refine .bind (gen_parses exp2anyreg_holds) fun v => parses_assume fun inReg => .bind (yindex_parses sound last) fun key => ?_
      exact .bind (gen_parses (indexed_holds inReg)) fun v => parses_assume fun _ => inductionHypothesis
    · refine .bind next_parses fun _ => .bind checkname_parses fun key => parses_assume ?_
      rintro ⟨i, rfl⟩
      refine .bind (gen_parses (self_holds rfl rfl rfl)) fun v => parses_assume ?_
      rintro ⟨reg, inReg, low, high⟩
      rw [← inReg.info] at low high
      exact .bind (funcargs_parses sound last low (by omega) (by omega)) fun v => inductionHypothesis
    · refine .bind (gen_parses exp2nextreg_holds) fun v => parses_assume ?_
      rintro ⟨reg, inReg, low, high⟩
      rw [← inReg.info] at low high
      exact .bind (funcargs_parses sound last low high (by omega)) fun v => inductionHypothesis
    · exact fun _ parses => parses

theorem primaryexp_parses : Ensures (Parses G (Holds F L k)) (primaryexp env fuel rules) (fun e => Parses G (Gives F L k e)) Failed :=
  .bind (prefixexp_parses sound last) fun _ => primaryLoop_parses sound last

omit sound last in
theorem dots_parses : Ensures (Parses G (Holds F L k)) (dots : CompileM N (ExpDesc N)) (fun e => Parses G (Gives F L k e)) Failed := by
  have rest : Ensures (Parses G (Holds F L k))
      (do
        gen (modify fun fs => { fs with isVararg := fs.isVararg &&& (varargHasArg ||| varargIsVararg) })
        let pc ← gen (codeABC .vararg 0 1 0)
        pure (initExp .vvararg pc)) (fun e => Parses G (Gives F L k e)) Failed := by
    refine .bind (genModify_parses fun _ => .of_same rfl rfl rfl rfl rfl ⟨rfl, rfl, rfl⟩) fun _ => ?_
    exact .bind (gen_parses vararg_gives) fun _ _ parses => parses
  refine .get_bind fun ls parses => .ite (fun _ => ?_) fun _ => rest.at_state parses
  exact .bind (.at_state syntaxerror_parses parses) fun _ => rest

omit [GafqNumber N] sound last in
/-- A value that needs no code yet. -/
theorem literal_gives {e : ExpDesc N} {fs : FuncState N} (kind : e.k ∈ [.vnil, .vtrue, .vfalse, .vk, .vknum]) (noTrue : e.t = noJump)
    (noFalse : e.f = noJump) (holds : Holds F L k fs) : Gives F L k e fs := by
  simp only [List.mem_cons, List.not_mem_nil, or_false] at kind
  have other : e.k ≠ .vjmp ∧ e.k ≠ .vrelocable ∧ e.k.IsDischarged ∧ e.regs F.nactvar = 0 := by
    obtain kind | kind | kind | kind | kind := kind <;> simp [kind, ExpKind.IsDischarged, ExpDesc.regs, ExpDesc.operands]
  refine ⟨?_, .of_discharged other.2.2.1 other.2.1⟩
  rw [other.2.2.2, Nat.zero_add]
  exact holds.addLists other.1 noTrue noFalse

theorem simpleexp_parses : Ensures (Parses G (Holds F L k)) (simpleexp env fuel rules) (fun e => Parses G (Gives F L k e)) Failed := by
  have literal {e : ExpDesc N} (kind : e.k ∈ [.vnil, .vtrue, .vfalse, .vk, .vknum]) (noTrue : e.t = noJump) (noFalse : e.f = noJump) :
      Ensures (Parses G (Holds F L k)) (next env >>= fun _ => pure e) (fun e => Parses G (Gives F L k e)) Failed :=
    .bind next_parses fun _ ls parses => parses.withFs (literal_gives kind noTrue noFalse parses.current)
  refine .bind token_parses fun t => .ite (fun _ => ?_) fun _ => .ite (fun _ => ?_) fun _ => .ite (fun _ => ?_) fun _ => .ite (fun _ => ?_) fun _ =>
    .ite (fun _ => ?_) fun _ => .ite (fun _ => ?_) fun _ => .ite (fun _ => ?_) fun _ => .ite (fun _ => ?_) fun _ => primaryexp_parses sound last
  · exact .get_bind fun ls parses => (literal (by simp [initExp]) rfl rfl).at_state parses
  · refine .get_bind fun ls parses => .bind (.at_state codestring_parses parses) fun v => parses_assume ?_
    rintro ⟨i, rfl⟩
    exact literal (by simp [initExp]) rfl rfl
  · exact literal (by simp [initExp]) rfl rfl
  · exact literal (by simp [initExp]) rfl rfl
  · exact literal (by simp [initExp]) rfl rfl
  · exact .bind dots_parses fun v => .bind next_parses fun _ _ parses => parses
  · exact .weaken (constructor_parses sound last) (fun _ parses => parses) fun _ ls parses => parses.withFs parses.current.1
  · exact .bind next_parses fun _ => .get_bind fun ls parses => .at_state (body_parses sound) parses

/-- The operands of the operators that are open wait for each other. -/
theorem exprLoop_parses {limit left : Nat} {op : Option BinOpr} :
    Ensures (Parses G (Gives F L k v)) (exprLoop env rules limit left op v) (fun r => Parses G (Gives F L k r.1)) Failed := by
  induction left generalizing op v with
  | zero => exact fun ls parses => parses.failed
  | succ left inductionHypothesis =>
    cases op with
    | none => exact fun _ parses => parses
    | some op =>
      refine .ite (fun _ => ?_) fun _ _ parses => parses
      refine .bind next_parses fun _ => .bind (gen_parses (infixExp_holds last)) fun v => parses_assume fun waits => ?_
      refine (sound.subexpr _ G F _ _ last).bind fun r => .bind (gen_parses (posfixExp_holds waits)) fun v => inductionHypothesis

theorem firstOperand_parses : Ensures (Parses G (Holds F L k)) (firstOperand env fuel rules) (fun e => Parses G (Gives F L k e)) Failed := by
  refine .bind token_parses fun t => ?_
  split
  · exact .bind next_parses fun _ => (sound.subexpr _ G F L k last).bind fun r => gen_parses prefixExp_holds
  · exact simpleexp_parses sound last

theorem subexpr_parses {limit : Nat} :
    Ensures (Parses G (Holds F L k)) (subexpr env fuel rules limit) (fun r => Parses G (Gives F L k r.1)) Failed := by
  refine .bind enterlevel_parses fun _ => .bind (firstOperand_parses sound last) fun v => .bind token_parses fun t => ?_
  exact .bind (exprLoop_parses sound last) fun r => .bind leavelevel_parses fun _ _ parses => parses

end

end Gafq.Compiler
