import Gafq.Verified.Compiler.ParsedExpressions

/-! # Rules for statements

Around a statement the lists that its caller holds are held, and no register.
-/

namespace Gafq.Compiler

open Lexer Code Base
open Gafq.Parser (tok quoted tkFunction)

variable {N : Type} [GafqNumber N] {env : Env N} {fuel : Nat} {rules : Rules N}
  {G : List (FuncState N → Prop)} {F : CodeFrame} {L : Multiset Int} {k : Nat} {v : ExpDesc N}

/-! ## Between statements -/

omit [GafqNumber N] in
theorem Idle.outside {nactvar : Nat} {breaklists : List Int} {fs : FuncState N} (length : breaklists.length = F.breaklists.length)
    (idle : Idle { F with nactvar, breaklists } L fs) : Idle F L fs := by
  obtain ⟨nactvar', breaklists', length', holds⟩ := idle
  exact ⟨nactvar', breaklists', length'.trans length, holds⟩

omit [GafqNumber N] in
/-- What is done whatever the local variables and the lists of the blocks are. -/
theorem idle_parses {α : Type} {m : CompileM N α} {L' : α → Multiset Int} (last : F.last)
    (valid : ∀ F' : CodeFrame, F'.last → Ensures (Parses G (Holds F' L 0)) m (fun a => Parses G (Idle F' (L' a))) Failed) :
    Ensures (Parses G (Idle F L)) m (fun a => Parses G (Idle F (L' a))) Failed := by
  intro ls parses
  obtain ⟨nactvar, breaklists, length, holds⟩ := parses.current
  refine ((valid { F with nactvar, breaklists } last).weaken (fun _ parses => parses) fun a ls parses => ?_) ls (parses.withFs holds)
  exact parses.withFs (Idle.outside length parses.current)

omit [GafqNumber N] in
theorem Idle.lists {L' : Multiset Int} {fs : FuncState N} (idle : Idle F L fs) (same : L = L') : Idle F L' fs := same ▸ idle

section

variable (sound : Sound rules) (last : F.last)

include sound last

omit [GafqNumber N] in
theorem block_parses : Ensures (Parses G (Idle F L)) (block rules) (fun _ => Parses G (Idle F L)) Failed := by
  refine .bind (gen_parses enterblock_idle) fun _ => (sound.chunk G (inBlock F) L last).bind fun _ => ?_
  exact gen_parses leaveblock_idle

/-- The list of the jumps that are taken when the condition is false. -/
theorem cond_parses : Ensures (Parses G (Idle F L)) (cond env rules) (fun f => Parses G (Idle F ({f} + L))) Failed := by
  refine idle_parses last fun F' last => .bind (expr_parses sound last) fun v => ?_
  have asFalse : Ensures (Gives F' L 0 v) (goiftrue env (if v.k = .vnil then { v with k := .vfalse } else v))
      (fun e fs => Idle F' ({e.f} + L) fs) Stopped := by
    refine .weaken (goiftrue_holds (k := 0) last) (fun fs gives => ?_) fun _ _ holds => Holds.idle holds
    split
    · next isNil =>
      have relisted : Holds F' (({ v with k := .vfalse } : ExpDesc N).lists + L) (v.regs F'.nactvar + 0) fs :=
        gives.holds.relist rfl rfl (by simp [isNil]) (by simp)
      refine ⟨relisted.less ?_, .of_discharged (by simp [ExpKind.IsDischarged]) (by simp)⟩
      simp [ExpDesc.regs, ExpDesc.operands]
    · exact gives
  exact .bind (gen_parses asFalse) fun _ _ parses => parses

theorem whilestat_parses {line : Nat} : Ensures (Parses G (Idle F L)) (whilestat env rules line) (fun _ => Parses G (Idle F L)) Failed := by
  refine .bind next_parses fun _ => .bind (gen_parses getlabel_idle) fun whileinit => .bind (cond_parses sound last) fun condexit => ?_
  refine .bind (gen_parses enterblock_idle) fun _ => .bind checknext_parses fun _ => ?_
  have inside : (inBlock F).last := last
  refine .bind (block_parses sound inside) fun _ => .bind (gen_parses (.bind jump_idle fun _ => patchlist_idle)) fun _ => ?_
  exact .bind checkMatch_parses fun _ => .bind (gen_parses leaveblock_idle) fun _ => gen_parses patchtohere_idle

omit [GafqNumber N] sound last in
theorem closeRepeat_idle {upval : Bool} {condexit : Int} {repeatInit : Nat} :
    Ensures (Idle (inBlock F) ({condexit} + L)) (closeRepeat upval condexit repeatInit : CodeM N Unit) (fun _ => Idle F L) Stopped := by
  refine .ite (fun _ => ?_) fun _ => ?_
  · exact .bind leaveblock_idle fun _ => patchlist_idle
  · refine .bind breakstat_idle fun _ => .bind patchtohere_idle fun _ => .bind leaveblock_idle fun _ => ?_
    exact .bind jump_idle fun _ => patchlist_idle

theorem repeatstat_parses {line : Nat} : Ensures (Parses G (Idle F L)) (repeatstat env rules line) (fun _ => Parses G (Idle F L)) Failed := by
  have inside : (inBlock (inBlock F)).last := last
  refine .bind (gen_parses getlabel_idle) fun repeatInit => .bind (gen_parses enterblock_idle) fun _ => .bind (gen_parses enterblock_idle) fun _ => ?_
  refine .bind next_parses fun _ => (sound.chunk G _ L inside).bind fun _ => .bind checkMatch_parses fun _ => ?_
  refine .bind (cond_parses sound inside) fun condexit => .get_bind fun ls parses => ?_
  exact .bind (.at_state (gen_parses closeRepeat_idle) parses) fun _ => gen_parses leaveblock_idle

/-! ## Loops -/

theorem exp1_parses : Ensures (Parses G (Idle F L)) (exp1 env rules) (fun _ => Parses G (Idle F L)) Failed := by
  refine idle_parses last fun F' last => .bind (expr_parses sound last) fun e => .bind (gen_parses exp2nextreg_holds) fun _ => ?_
  exact fun ls parses => parses.withFs (Holds.idle parses.current.1)

/-- The beginning of a loop; a numeric one keeps the place of its `OP_FORPREP`. -/
theorem forbody_parses {base : Int} {line nvars : Nat} {isnum : Bool} (low : 0 ≤ base) (high : base ≤ 255) :
    Ensures (Parses G (Idle F L)) (forbody env rules base line nvars isnum) (fun _ => Parses G (Idle F L)) Failed := by
  obtain ⟨base, rfl⟩ := Int.eq_ofNat_of_zero_le low
  refine .bind (gen_parses adjustlocalvars_idle) fun _ => .bind checknext_parses fun _ => ?_
  have rest {F' : CodeFrame} {L' : Multiset Int} {prep : Int} (last : F'.last)
      (closing : Ensures (Idle F' L') (closeFor base prep line nvars isnum : CodeM N Unit) (fun _ => Idle F L) Stopped) :
      Ensures (Parses G (Idle F' L'))
        (do
          gen (enterblock false)
          gen (adjustlocalvars nvars)
          gen (reserveregs nvars)
          block rules
          gen leaveblock
          gen (closeFor base prep line nvars isnum)) (fun _ => Parses G (Idle F L)) Failed := by
    have inside : (inBlock F').last := last
    have reserved : Ensures (Idle (inBlock F') L') (reserveregs nvars : CodeM N Unit) (fun _ => Idle (inBlock F') L') Stopped :=
      keeps_idle fun _ _ _ => .weaken reserveregs_holds (fun _ holds => holds) fun _ _ holds => holds.less (Nat.zero_le _)
    refine .bind (gen_parses enterblock_idle) fun _ => .bind (gen_parses adjustlocalvars_idle) fun _ => .bind (gen_parses reserved) fun _ => ?_
    exact .bind (block_parses sound inside) fun _ => .bind (gen_parses leaveblock_idle) fun _ => gen_parses closing
  cases isnum with
  | true =>
    have prepared : Ensures (Idle F L) (do let pc ← codeAsBx .forprep base noJump; pure (pc : Int) : CodeM N Int)
        (fun prep fs => ∃ p : Nat, prep = p ∧ Idle (F.inLoop p) L fs) Stopped :=
      .bind (forprep_idle (by omega)) fun p _ idle => ⟨p, rfl, idle⟩
    refine .bind (gen_parses prepared) fun prep ls parses => ?_
    obtain ⟨p, rfl, idle⟩ := parses.current
    have inside : (F.inLoop p).last := last
    exact rest inside (closeFor_numeric (by omega)) ls (parses.withFs idle)
  | false => exact .bind (gen_parses jump_idle) fun prep => rest last closeFor_generic

omit sound last in
theorem newLocalvarliteral_parses {name : String} {n : Nat} {Q : FuncState N → Prop} [Tame Q] :
    Ensures (Parses G Q) (newLocalvarliteral env name n) (fun _ => Parses G Q) Failed :=
  .bind newString_parses fun _ => gen_parses newLocalvar_tame

omit sound last in
theorem defaultStep_idle : Ensures (Idle F L) (defaultStep env) (fun _ => Idle F L) Stopped := by
  refine .bind onConstants_tame fun k => .get_bind fun fs idle => ?_
  have coded : Ensures (Idle F L) (codeABx .loadk fs.freereg k : CodeM N Nat) (fun _ => Idle F L) Stopped :=
    keeps_idle fun _ _ _ => .weaken (codeABx_holds (by decide)) (fun _ holds => holds) fun _ _ holds => holds.1
  have reserved : Ensures (Idle F L) (reserveregs 1 : CodeM N Unit) (fun _ => Idle F L) Stopped :=
    keeps_idle fun _ _ _ => .weaken reserveregs_one (fun _ holds => holds) fun _ _ holds => holds.less (Nat.zero_le _)
  exact (coded.at_state idle).bind fun _ => reserved

omit [GafqNumber N] sound last in
/-- The first free register. -/
theorem Idle.freereg {fs : FuncState N} (idle : Idle F L fs) : 0 ≤ fs.freereg ∧ fs.freereg ≤ 255 := by
  obtain ⟨_, _, _, holds⟩ := idle
  exact ⟨by simpa using holds.room.held, holds.room.freereg⟩

theorem fornum_parses {varname : TString} {line : Nat} :
    Ensures (Parses G (Idle F L)) (fornum env rules varname line) (fun _ => Parses G (Idle F L)) Failed := by
  refine .get_bind fun ls parses => ?_
  obtain ⟨low, high⟩ := Idle.freereg parses.current
  refine .bind (.at_state newLocalvarliteral_parses parses) fun _ => .bind newLocalvarliteral_parses fun _ => .bind newLocalvarliteral_parses fun _ => ?_
  refine .bind (gen_parses newLocalvar_tame) fun _ => .bind checknext_parses fun _ => .bind (exp1_parses sound last) fun _ => ?_
  refine .bind checknext_parses fun _ => .bind (exp1_parses sound last) fun _ => .bind testnext_parses fun more => .ite (fun _ => ?_) fun _ => ?_
  · exact .bind (exp1_parses sound last) fun _ => forbody_parses sound last low high
  · exact .bind (gen_parses defaultStep_idle) fun _ => forbody_parses sound last low high

omit sound last in
theorem forVars_parses {left nvars : Nat} {Q : FuncState N → Prop} [Tame Q] :
    Ensures (Parses G Q) (forVars env left nvars) (fun _ => Parses G Q) Failed := by
  induction left generalizing nvars with
  | zero => exact fun ls parses => parses.failed
  | succ left inductionHypothesis =>
    refine .bind testnext_parses fun more => .ite (fun _ => ?_) fun _ _ parses => parses
    exact .bind strCheckname_parses fun name => .bind (gen_parses newLocalvar_tame) fun _ => inductionHypothesis

theorem forlist_parses {indexname : TString} :
    Ensures (Parses G (Idle F L)) (forlist env fuel rules indexname) (fun _ => Parses G (Idle F L)) Failed := by
  refine .get_bind fun ls parses => ?_
  obtain ⟨low, high⟩ := Idle.freereg parses.current
  refine .bind (.at_state newLocalvarliteral_parses parses) fun _ => .bind newLocalvarliteral_parses fun _ => .bind newLocalvarliteral_parses fun _ => ?_
  refine .bind (gen_parses newLocalvar_tame) fun _ => .bind forVars_parses fun nvars => .bind checknext_parses fun _ => .get_bind fun ls parses => ?_
  refine Ensures.at_state (idle_parses last fun F' last => .bind (explist1_parses sound last) fun r => parses_assume fun _ => ?_) parses
  have adjusted : Ensures (Values F' L 0 r.2 r.1) (adjustAssign env ((3 : Nat) : Int) r.2 r.1) (fun _ => Idle F' L) Stopped :=
    .weaken adjustAssign_holds (fun _ values => values) fun _ _ holds => Holds.idle holds
  have grown : Ensures (Idle F' L) (checkstack 3 : CodeM N Unit) (fun _ => Idle F' L) Stopped := keeps_idle fun _ _ _ => checkstack_holds
  exact .bind (gen_parses adjusted) fun _ => .bind (gen_parses grown) fun _ => forbody_parses sound last low high

theorem forstat_parses {line : Nat} : Ensures (Parses G (Idle F L)) (forstat env fuel rules line) (fun _ => Parses G (Idle F L)) Failed := by
  have inside : (inBlock F).last := last
  refine .bind (gen_parses enterblock_idle) fun _ => .bind next_parses fun _ => .bind strCheckname_parses fun varname => .bind token_parses fun t => ?_
  have rest : Ensures (Parses G (Idle (inBlock F) L)) (checkMatch env tkEnd tkFor line >>= fun _ => gen leaveblock)
      (fun _ => Parses G (Idle F L)) Failed := .bind checkMatch_parses fun _ => gen_parses leaveblock_idle
  refine .ite (fun _ => ?_) fun _ => .ite (fun _ => ?_) fun _ => ?_
  · exact .bind (fornum_parses sound inside) fun _ => rest
  · exact .bind (forlist_parses sound inside) fun _ => rest
  · exact .bind syntaxerror_parses fun _ => rest

/-! ## Conditions -/

theorem testThenBlock_parses : Ensures (Parses G (Idle F L)) (testThenBlock env rules) (fun f => Parses G (Idle F ({f} + L))) Failed := by
  refine .bind next_parses fun _ => .bind (cond_parses sound last) fun condexit => .bind checknext_parses fun _ => ?_
  exact .bind (block_parses sound last) fun _ _ parses => parses

omit [GafqNumber N] sound last in
theorem nextPart_idle {escapelist flist : Int} :
    Ensures (Idle F ({flist} + ({escapelist} + L))) (nextPart escapelist flist : CodeM N Int) (fun l => Idle F ({l} + L)) Stopped := by
  have swap (j : Int) : ({j} + ({flist} + ({escapelist} + L)) : Multiset Int) = {escapelist} + ({j} + ({flist} + L)) := by
    abel
  refine .bind jump_idle fun j => ?_
  rw [swap]
  refine .bind concat_idle fun l => ?_
  rw [add_left_comm]
  exact .bind patchtohere_idle fun _ _ idle => idle

/-- The jumps out of the parts before are on the escape list. -/
theorem elseifLoop_parses {left : Nat} {escapelist flist : Int} :
    Ensures (Parses G (Idle F ({flist} + ({escapelist} + L)))) (elseifLoop env rules left escapelist flist)
      (fun r => Parses G (Idle F ({r.2} + ({r.1} + L)))) Failed := by
  induction left generalizing escapelist flist with
  | zero => exact fun ls parses => parses.failed
  | succ left inductionHypothesis =>
    refine .bind token_parses fun t => .ite (fun _ => ?_) fun _ _ parses => parses
    exact .bind (gen_parses nextPart_idle) fun escapelist => .bind (testThenBlock_parses sound last) fun flist => inductionHypothesis

theorem ifstat_parses {line : Nat} : Ensures (Parses G (Idle F L)) (ifstat env fuel rules line) (fun _ => Parses G (Idle F L)) Failed := by
  refine .bind (testThenBlock_parses sound last) fun flist => ?_
  have noEscape (ls : LexState N) (parses : Parses G (Idle F ({flist} + L)) ls) : Parses G (Idle F ({flist} + ({noJump} + L))) ls := by
    obtain ⟨nactvar, breaklists, length, holds⟩ := parses.current
    exact parses.withFs ⟨nactvar, breaklists, length, holds.none.lists (add_left_comm ..)⟩
  refine Ensures.bind (.weaken (elseifLoop_parses sound last) noEscape fun _ _ parses => parses) fun r => ?_
  have closed (l : Int) : Ensures (Parses G (Idle F ({l} + L))) (gen (patchtohere l) >>= fun _ => checkMatch env tkEnd tkIf line)
      (fun _ => Parses G (Idle F L)) Failed := .bind (gen_parses patchtohere_idle) fun _ => checkMatch_parses
  refine .bind token_parses fun t => .ite (fun _ => ?_) fun _ => ?_
  · exact .bind (gen_parses nextPart_idle) fun l => .bind next_parses fun _ => .bind (block_parses sound last) fun _ => closed l
  · refine Ensures.bind (gen_parses ?_) closed
    rw [add_left_comm]
    exact concat_idle

/-! ## Functions and variables -/

omit [GafqNumber N] sound last in
/-- A variable has no jumps. -/
theorem variable_holds {fs : FuncState N} (isVariable : v.k.IsVariable) (gives : Gives F L k v fs) : Holds F L k fs := by
  have simple : v.k.IsSimple := by
    simp only [ExpKind.IsVariable, List.mem_cons, List.not_mem_nil, or_false] at isVariable
    obtain kind | kind | kind | kind := isVariable <;> simp [kind, ExpKind.IsSimple]
  obtain ⟨noTrue, noFalse⟩ := gives.fits.simple simple
  exact (gives.holds.noLists simple.ne_jmp noTrue noFalse).less (Nat.le_add_left ..)

omit last in
/-- The value of a function is stored. -/
theorem storeBody_parses {needself : Bool} {line : Nat} {rest : CompileM N Unit} (isVariable : v.k.IsVariable)
    (valid : Ensures (Parses G (Idle F L)) rest (fun _ => Parses G (Idle F L)) Failed) :
    Ensures (Parses G (Holds F L 0))
      (body env fuel rules needself line >>= fun b => gen (storevar env v b) >>= fun _ => rest) (fun _ => Parses G (Idle F L)) Failed := by
  refine .bind (body_parses sound) fun b => Ensures.bind (gen_parses ?_) fun _ => valid
  exact .weaken (storevar_holds isVariable) (fun _ gives => gives) fun _ _ holds => Holds.idle holds

theorem localfunc_parses : Ensures (Parses G (Idle F L)) (localfunc env fuel rules) (fun _ => Parses G (Idle F L)) Failed := by
  refine .bind strCheckname_parses fun name => .bind (gen_parses newLocalvar_tame) fun _ => .get_bind fun ls parses => ?_
  have reserved : Ensures (Idle F L) (reserveregs 1 : CodeM N Unit) (fun _ => Idle F L) Stopped :=
    keeps_idle fun _ _ _ => .weaken reserveregs_one (fun _ holds => holds) fun _ _ holds => holds.less (Nat.zero_le _)
  refine .bind (.at_state (gen_parses reserved) parses) fun _ => .bind (gen_parses adjustlocalvars_idle) fun _ => ?_
  refine idle_parses last fun F' last => .get_bind fun ls parses => ?_
  refine Ensures.at_state (storeBody_parses sound (by simp [initExp, ExpKind.IsVariable]) ?_) parses
  exact genModify_parses fun _ => .of_same rfl rfl rfl rfl rfl ⟨rfl, rfl, rfl⟩

omit sound last in
theorem localNames_parses {left nvars : Nat} {Q : FuncState N → Prop} [Tame Q] :
    Ensures (Parses G Q) (localNames env left nvars) (fun _ => Parses G Q) Failed := by
  induction left generalizing nvars with
  | zero => exact fun ls parses => parses.failed
  | succ left inductionHypothesis =>
    refine .bind strCheckname_parses fun name => .bind (gen_parses newLocalvar_tame) fun _ => .bind testnext_parses fun more => ?_
    exact .ite (fun _ => inductionHypothesis) fun _ _ parses => parses

theorem localstat_parses : Ensures (Parses G (Idle F L)) (localstat env fuel rules) (fun _ => Parses G (Idle F L)) Failed := by
  refine .bind localNames_parses fun nvars => .bind testnext_parses fun more => idle_parses last fun F' last => ?_
  have values : Ensures (Parses G (Holds F' L 0)) (if more then explist1 env fuel rules else pure (initExp .vvoid 0, 0))
      (fun r => Parses G (Values F' L 0 r.2 r.1)) Failed := by
    refine .ite (fun _ => ?_) fun _ => ?_
    · exact .weaken (explist1_parses sound last) (fun _ parses => parses) fun r ls parses => parses.withFs parses.current.1
    · exact fun ls parses => parses.withFs (.inl ⟨rfl, rfl, parses.current⟩)
  refine .ite_bind values fun r => ?_
  have adjusted : Ensures (Values F' L 0 r.2 r.1) (adjustAssign env nvars r.2 r.1) (fun _ => Idle F' L) Stopped :=
    .weaken adjustAssign_holds (fun _ values => values) fun _ _ holds => Holds.idle holds
  exact .bind (gen_parses adjusted) fun _ => gen_parses adjustlocalvars_idle

omit sound last in
theorem funcFields_parses {left : Nat} (isVariable : v.k.IsVariable) :
    Ensures (Parses G (Gives F L k v)) (funcFields env left v) (fun e => Parses G fun fs => Gives F L k e fs ∧ e.k.IsVariable) Failed := by
  induction left generalizing v with
  | zero => exact fun ls parses => parses.failed
  | succ left inductionHypothesis =>
    refine .bind token_parses fun t => .ite (fun _ => ?_) fun _ => ?_
    · exact .bind field_parses fun v => parses_assume inductionHypothesis
    · exact fun ls parses => parses.withFs ⟨parses.current, isVariable⟩

omit sound last in
theorem funcname_parses :
    Ensures (Parses G (Holds F L k)) (funcname env fuel) (fun r => Parses G fun fs => Gives F L k r.1 fs ∧ r.1.k.IsVariable) Failed := by
  refine .bind singlevar_parses fun v => parses_assume fun isVariable => .bind (funcFields_parses isVariable) fun v => ?_
  refine parses_assume fun isVariable => .bind token_parses fun t => .ite (fun _ => ?_) fun _ => ?_
  · exact .bind field_parses fun _ _ parses => parses
  · exact fun ls parses => parses.withFs ⟨parses.current, isVariable⟩

theorem funcstat_parses {line : Nat} : Ensures (Parses G (Idle F L)) (funcstat env fuel rules line) (fun _ => Parses G (Idle F L)) Failed := by
  refine .bind next_parses fun _ => idle_parses last fun F' last => .bind funcname_parses fun r => parses_assume fun isVariable => ?_
  refine Ensures.weaken (storeBody_parses sound isVariable (gen_parses fixline_idle)) ?_ fun _ _ parses => parses
  exact fun ls parses => parses.withFs (variable_holds isVariable parses.current)

/-! ## Assignments -/

omit [GafqNumber N] sound last in
theorem isVariable_iff {e : ExpDesc N} : ExpDesc.isVariable e ↔ e.k.IsVariable := by
  simp [ExpDesc.isVariable, ExpKind.IsVariable]

/-- As many values as variables are left, and the last one is stored. -/
theorem assignValues_parses {lh : ExpDesc N} {n : Nat} (isVariable : lh.k.IsVariable) :
    Ensures (Parses G (Holds F L 0)) (assignValues env fuel rules lh (n + 1)) (fun _ => Parses G (Holds F L n)) Failed := by
  refine .bind checknext_parses fun _ => .bind (explist1_parses sound last) fun r => ?_
  obtain ⟨e, nexps⟩ := r
  refine parses_assume ?_
  rintro ⟨m, rfl⟩
  refine .ite (fun differ => ?_) fun same => ?_
  · have stored : Ensures (Holds F L (1 + n)) (storeLast env lh) (fun _ => Holds F L n) Stopped := storeLast_holds isVariable
    have removed : Ensures (Holds F L (max (n + 1) (m + 1) + 0))
        (modify fun fs => { fs with freereg := fs.freereg - (m + 1 - (n + 1) : Nat) } : CodeM N Unit) (fun _ => Holds F L (1 + n)) Stopped := by
      refine .modify fun fs holds => ?_
      have room := holds.room
      have held := room.held
      have high := room.freereg
      exact holds.mild ⟨rfl, rfl, rfl, List.Subset.refl _, fun _ => .refl _⟩
        ⟨room.nactvar, room.locals, by simp only; omega, by simp only; omega, room.maxstacksize⟩
    refine .bind (gen_parses adjustAssign_holds) fun _ => .ite (fun more => ?_) fun fewer => ?_
    · exact .bind (gen_parses removed) fun _ => gen_parses stored
    · exact gen_parses (stored.weaken (fun _ holds => holds.less (by omega)) fun _ _ holds => holds)
  · have same : m = n := by omega
    subst same
    refine .bind (gen_parses (.weaken setoneret_gives (fun _ values => Values.gives values) fun _ _ gives => gives)) fun e => ?_
    exact gen_parses (.weaken (storevar_holds isVariable) (fun _ gives => gives) fun _ _ holds => holds.less (by omega))

/-- The values of the variables before are in registers until these variables get them. -/
theorem assignment_parses {left n : Nat} {lh : ExpDesc N} {prev : List (ExpDesc N)} (previous : ∀ l ∈ prev, l.k.IsVariable) :
    Ensures (Parses G (Gives F L 0 lh)) (assignment env fuel rules left lh prev (n + 1))
      (fun chain => Parses G fun fs => Holds F L n fs ∧ ∀ l ∈ chain, l.k.IsVariable) Failed := by
  induction left generalizing lh prev n with
  | zero => exact fun ls parses => parses.failed
  | succ left inductionHypothesis =>
    have refused : Ensures (Parses G (Gives F L 0 lh)) (syntaxerror (bytes "syntax error") : CompileM N PUnit) (fun _ _ => False) Failed :=
      syntaxerror_parses
    refine .ite (fun _ => refused.bind fun _ _ no => no.elim) fun isVariable => ?_
    rw [not_not, isVariable_iff] at isVariable
    have taken : Ensures (Parses G (Gives F L 0 lh)) (testnext env (tok ',')) (fun _ => Parses G (Holds F L 0)) Failed :=
      .weaken testnext_parses (fun ls parses => parses.withFs (variable_holds isVariable parses.current)) fun _ _ parses => parses
    have isChain : ∀ l ∈ lh :: prev, l.k.IsVariable := List.forall_mem_cons.2 ⟨isVariable, previous⟩
    refine taken.bind fun more => .ite (fun _ => ?_) fun _ => ?_
    · refine .bind (primaryexp_parses sound last) fun nv => ?_
      have copied : Ensures (Parses G (Gives F L 0 nv)) (if nv.k = .vlocal then gen (checkConflict (lh :: prev) nv) else pure (lh :: prev))
          (fun chain => Parses G fun fs => Gives F L 0 nv fs ∧ ∀ l ∈ chain, l.k.IsVariable) Failed := by
        refine .ite (fun isLocal => gen_parses (checkConflict_gives isLocal isChain)) fun _ => ?_
        exact fun ls parses => parses.withFs ⟨parses.current, isChain⟩
      refine .ite_bind copied fun chain => parses_assume fun isChain => .get_bind fun ls parses => ?_
      refine .bind (.at_state (gen_parses checklimit_tame) parses) fun _ => (inductionHypothesis isChain).bind fun chain => ?_
      refine parses_assume fun isChain => ?_
      cases chain with
      | nil => exact fun ls parses => parses.withFs ⟨parses.current.less (Nat.le_succ n), isChain⟩
      | cons lh prev =>
        obtain ⟨isVariable, previous⟩ := List.forall_mem_cons.1 isChain
        have stored : Ensures (Holds F L (n + 1)) (storeLast env lh) (fun _ => Holds F L n) Stopped :=
          (storeLast_holds isVariable).weaken (fun _ holds => holds.less (by omega)) fun _ _ holds => holds
        exact .bind (gen_parses stored) fun _ ls parses => parses.withFs ⟨parses.current, previous⟩
    · exact .bind (assignValues_parses sound last isVariable) fun _ ls parses => parses.withFs ⟨parses.current, previous⟩

/-- A call statement uses no results; any other expression is assigned to. -/
theorem exprstat_parses : Ensures (Parses G (Idle F L)) (exprstat env fuel rules) (fun _ => Parses G (Idle F L)) Failed := by
  refine idle_parses last fun F' last => .bind (primaryexp_parses sound last) fun v => .ite (fun isCall => ?_) fun _ => ?_
  · have isOpen : v.hasmultret := .inl isCall
    have called : Ensures (Gives F' L 0 v) (modifyCode v fun i => setArgC i 1) (fun _ => Idle F' L) Stopped := by
      refine .weaken (modifyCode_holds (k := v.regs F'.nactvar + 0) fun i => free_of_same (opcode?_setArgC ..)) (fun fs gives => ?_) fun _ _ holds => Holds.idle holds.1
      have simple : v.k.IsSimple := by simp [isCall, ExpKind.IsSimple]
      obtain ⟨noTrue, noFalse⟩ := gives.fits.simple simple
      exact ⟨gives.holds.noLists simple.ne_jmp noTrue noFalse, (gives.fits.isOpen isOpen).2⟩
    exact gen_parses called
  · refine .bind (assignment_parses (n := 0) sound last (by simp)) fun _ => ?_
    exact fun ls parses => parses.withFs (Holds.idle parses.current.1)

/-! ## Statements -/

theorem retstat_parses : Ensures (Parses G (Idle F L)) (retstat env fuel rules) (fun _ => Parses G (Idle F L)) Failed := by
  have returned {first nret : Int} : Ensures (Idle F L) (ret first nret : CodeM N Unit) (fun _ => Idle F L) Stopped :=
    keeps_idle fun _ _ _ => ret_holds
  refine .bind next_parses fun _ => .bind token_parses fun t => .ite (fun _ => gen_parses returned) fun _ => ?_
  refine idle_parses last fun F' last => .bind (explist1_parses sound last) fun r => ?_
  obtain ⟨e, nret⟩ := r
  refine parses_assume ?_
  rintro ⟨m, rfl⟩
  refine .bind (gen_parses (.weaken retValues_holds (fun _ values => Values.gives values) fun _ _ holds => Holds.idle holds)) fun r => ?_
  exact gen_parses (keeps_idle fun _ _ _ => ret_holds)

theorem statement_parses : Ensures (Parses G (Idle F L)) (statement env fuel rules) (fun _ => Parses G (Idle F L)) Failed := by
  refine .get_bind fun ls parses => Ensures.at_state (.bind token_parses fun t => ?_) parses
  have done {m : CompileM N Unit} {b : Bool} (valid : Ensures (Parses G (Idle F L)) m (fun _ => Parses G (Idle F L)) Failed) :
      Ensures (Parses G (Idle F L)) (m >>= fun _ => pure b) (fun _ => Parses G (Idle F L)) Failed := valid.bind fun _ _ parses => parses
  refine .ite (fun _ => done (ifstat_parses sound last)) fun _ => .ite (fun _ => done (whilestat_parses sound last)) fun _ =>
    .ite (fun _ => ?_) fun _ => .ite (fun _ => done (forstat_parses sound last)) fun _ => .ite (fun _ => done (repeatstat_parses sound last)) fun _ =>
    .ite (fun _ => done (funcstat_parses sound last)) fun _ => .ite (fun _ => ?_) fun _ => .ite (fun _ => done (retstat_parses sound last)) fun _ =>
    .ite (fun _ => ?_) fun _ => done (exprstat_parses sound last)
  · exact .bind next_parses fun _ => .bind (block_parses sound last) fun _ => done checkMatch_parses
  · refine .bind next_parses fun _ => .bind testnext_parses fun isFunction => .ite (fun _ => ?_) fun _ => ?_
    · exact done (localfunc_parses sound last)
    · exact done (localstat_parses sound last)
  · exact .bind next_parses fun _ => done (gen_parses breakstat_idle)

theorem chunkLoop_parses {left : Nat} : Ensures (Parses G (Idle F L)) (chunkLoop env fuel rules left) (fun _ => Parses G (Idle F L)) Failed := by
  induction left with
  | zero => exact fun ls parses => parses.failed
  | succ left inductionHypothesis =>
    refine .bind token_parses fun t => .ite (fun _ _ parses => parses) fun _ => .bind (statement_parses sound last) fun islast => ?_
    refine .bind testnext_parses fun _ => .bind (gen_parses freeTemporaries_idle) fun _ => .ite (fun _ _ parses => parses) fun _ => ?_
    exact inductionHypothesis

theorem chunk_parses : Ensures (Parses G (Idle F L)) (chunk env fuel rules) (fun _ => Parses G (Idle F L)) Failed :=
  .bind enterlevel_parses fun _ => .bind (chunkLoop_parses sound last) fun _ => leavelevel_parses

end

end Gafq.Compiler
