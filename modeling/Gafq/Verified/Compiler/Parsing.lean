import Gafq.Verified.Compiler.ValueFrames

/-! # What the parser holds

While a function is compiled the enclosing ones wait, each in a state of which something is known.  The
functions on tokens and on variables change none of them as far as jumps are concerned.
-/

namespace Gafq.Compiler

open Lexer Code Base

variable {N : Type} {fs fs' : FuncState N} {ls : LexState N} {G : List (FuncState N → Prop)} {Q P : FuncState N → Prop}

/-! ## States of the parser -/

/-- Code that has been finished: no list is pending any more. -/
def Finished (fs : FuncState N) : Prop :=
  ∃ c : Config N, Code.Reachable c ∧ c.fs = fs ∧ c.live = 0 ∧ c.loops = 0 ∧ fs.bl = [] ∧ fs.jpc = noJump

/-- `Q` is known of the current function and `G` of the enclosing ones. -/
structure Parses (G : List (FuncState N → Prop)) (Q : FuncState N → Prop) (ls : LexState N) : Prop where
  current : Q ls.fs
  enclosing : List.Forall₂ (fun P fs => Tame P ∧ P fs) G ls.prev
  closed : ∀ fs ∈ ls.closed, Finished fs

/-- After an error, each function that is not finished has been stopped on its way. -/
structure Failed (ls : LexState N) : Prop where
  opened : ∀ fs ∈ ls.fs :: ls.prev, Stopped fs
  closed : ∀ fs ∈ ls.closed, Finished fs

theorem enclosing_stopped {prev : List (FuncState N)} (enclosing : List.Forall₂ (fun P fs => Tame P ∧ P fs) G prev) :
    ∀ fs ∈ prev, Stopped fs := by
  induction enclosing with
  | nil => simp
  | cons first _ inductionHypothesis =>
    obtain ⟨tame, holds⟩ := first
    exact List.forall_mem_cons.2 ⟨Tame.stopped _ holds, inductionHypothesis⟩

namespace Parses

theorem failed_of (parses : Parses G Q ls) (stopped : Stopped ls.fs) : Failed ls := by
  refine ⟨fun fs member => ?_, parses.closed⟩
  obtain rfl | member := List.mem_cons.1 member
  · exact stopped
  · exact enclosing_stopped parses.enclosing fs member

theorem failed [Tame Q] (parses : Parses G Q ls) : Failed ls := parses.failed_of (Tame.stopped _ parses.current)

/-- The current function goes on. -/
theorem withFs (parses : Parses G Q ls) (holds : P fs) : Parses G P { ls with fs } := ⟨holds, parses.enclosing, parses.closed⟩

end Parses

theorem parses_assume {α : Type} {p : Prop} {m : CompileM N α} {post : α → LexState N → Prop} (valid : p → Ensures (Parses G Q) m post Failed) :
    Ensures (Parses G fun fs => Q fs ∧ p) m post Failed :=
  fun ls parses => valid parses.current.2 ls ⟨parses.current.1, parses.enclosing, parses.closed⟩

/-- A call of the code generator in a known state. -/
theorem gen_at {α : Type} {m : CodeM N α} {post : α → FuncState N → Prop} (parses : Parses G Q ls)
    (valid : Ensures (fun fs => fs = { ls.fs with lastline := ls.lastline }) m post Stopped) :
    Ensures (· = ls) (gen m) (fun a => Parses G (post a)) Failed := by
  intro _ same
  have reached := valid _ rfl
  rw [same]
  simp only [gen]
  cases ran : m { ls.fs with lastline := ls.lastline } with
  | ok a fs =>
    rw [ran] at reached
    exact parses.withFs reached
  | error e fs =>
    rw [ran] at reached
    have stopped : Parses G (fun _ => True) { ls with fs } := parses.withFs trivial
    exact stopped.failed_of reached

/-- A call of the code generator. -/
theorem gen_parses {α : Type} {m : CodeM N α} {post : α → FuncState N → Prop} [Tame Q] (valid : Ensures Q m post Stopped) :
    Ensures (Parses G Q) (gen m) (fun a => Parses G (post a)) Failed := by
  intro ls parses
  refine gen_at parses (valid.at_state ?_) ls rfl
  exact Tame.quiet ls.fs _ (.of_same rfl rfl rfl rfl rfl ⟨rfl, rfl, rfl⟩) parses.current

/-- A change of the current function that concerns no jump. -/
theorem genModify_parses {f : FuncState N → FuncState N} [Tame Q] (quiet : ∀ fs, Quiet fs (f fs)) :
    Ensures (Parses G Q) (gen (modify f)) (fun _ => Parses G Q) Failed :=
  gen_parses (modify_tame quiet)

/-! ## Tokens -/

/-- The lexer changes no function. -/
theorem modify_parses {f : LexState N → LexState N} (same : ∀ ls, (f ls).fs = ls.fs ∧ (f ls).prev = ls.prev ∧ (f ls).closed = ls.closed) :
    Ensures (Parses G Q) (modify f : CompileM N Unit) (fun _ => Parses G Q) Failed := by
  refine .modify fun ls parses => ?_
  obtain ⟨fs, prev, closed⟩ := same ls
  refine ⟨?_, ?_, ?_⟩
  · rw [fs]
    exact parses.current
  · rw [prev]
    exact parses.enclosing
  · rw [closed]
    exact parses.closed

theorem token_parses : Ensures (Parses G Q) (token : CompileM N Nat) (fun _ => Parses G Q) Failed :=
  .get_bind fun _ parses => Ensures.pure.at_state parses

theorem leavelevel_parses : Ensures (Parses G Q) (leavelevel : CompileM N Unit) (fun _ => Parses G Q) Failed :=
  modify_parses fun _ => ⟨rfl, rfl, rfl⟩

section

variable [Tame Q]

theorem syntaxerror_parses {α : Type} {msg : TString} {post : α → LexState N → Prop} :
    Ensures (Parses G Q) (syntaxerror msg : CompileM N α) post Failed := by
  refine .get_bind fun ls parses => ?_
  rintro _ rfl
  exact parses.failed

theorem enterlevel_parses : Ensures (Parses G Q) (enterlevel : CompileM N Unit) (fun _ => Parses G Q) Failed := by
  have counted : Ensures (Parses G Q) (modify fun ls => { ls with nCcalls := ls.nCcalls + 1 } : CompileM N Unit) (fun _ => Parses G Q) Failed :=
    modify_parses fun _ => ⟨rfl, rfl, rfl⟩
  refine counted.bind fun _ => .get_bind fun ls parses => .ite (fun _ => ?_) fun _ => ?_
  · rintro _ rfl
    exact parses.failed
  · rintro _ rfl
    exact parses

theorem onConstants_tame {α : Type} {m : ConstantsM N α} : Ensures Q (onConstants m) (fun _ => Q) Stopped := by
  intro fs holds
  have after (constants : Constants N) : Q { fs with constants } := Tame.quiet fs _ (.of_same rfl rfl rfl rfl rfl ⟨rfl, rfl, rfl⟩) holds
  simp only [onConstants]
  cases m fs.constants with
  | ok a constants => exact after constants
  | error e constants => exact Tame.stopped _ (after constants)

variable [GafqNumber N] {env : Env N}

theorem newString_parses {s : TString} : Ensures (Parses G Q) (newString env s) (fun _ => Parses G Q) Failed :=
  gen_parses onConstants_tame

theorem glex_parses : Ensures (Parses G Q) (glex env) (fun _ => Parses G Q) Failed := by
  refine .get_bind fun ls parses => ?_
  have stored (linenumber : Nat) (rest : List (Token N × Nat)) :
      Ensures (· = ls) (set { ls with linenumber, rest } : CompileM N Unit) (fun _ => Parses G Q) Failed :=
    .set fun _ _ => ⟨parses.current, parses.enclosing, parses.closed⟩
  split
  · exact (stored _ ls.rest).bind fun _ _ parses => parses
  · next t line rest _ =>
    refine (stored line rest).bind fun _ => ?_
    split
    · exact .bind newString_parses fun _ _ parses => parses
    · exact fun _ parses => parses

theorem next_parses : Ensures (Parses G Q) (next env) (fun _ => Parses G Q) Failed := by
  have noted : Ensures (Parses G Q) (modify fun ls => { ls with lastline := ls.linenumber } : CompileM N Unit) (fun _ => Parses G Q) Failed :=
    modify_parses fun _ => ⟨rfl, rfl, rfl⟩
  refine noted.bind fun _ => .get_bind fun ls parses => .ite (fun _ => ?_) fun _ => ?_
  · exact .set fun _ _ => ⟨parses.current, parses.enclosing, parses.closed⟩
  · exact .bind (.at_state glex_parses parses) fun _ => modify_parses fun _ => ⟨rfl, rfl, rfl⟩

theorem lookahead_parses : Ensures (Parses G Q) (lookahead env) (fun _ => Parses G Q) Failed :=
  .bind glex_parses fun _ => modify_parses fun _ => ⟨rfl, rfl, rfl⟩

theorem testnext_parses {c : Nat} : Ensures (Parses G Q) (testnext env c) (fun _ => Parses G Q) Failed :=
  .bind token_parses fun _ => .ite (fun _ => .bind next_parses fun _ _ parses => parses) fun _ _ parses => parses

omit [GafqNumber N] in
theorem check_parses {c : Nat} : Ensures (Parses G Q) (check c : CompileM N Unit) (fun _ => Parses G Q) Failed :=
  .bind token_parses fun _ => .ite (fun _ => syntaxerror_parses) fun _ _ parses => parses

theorem checknext_parses {c : Nat} : Ensures (Parses G Q) (checknext env c) (fun _ => Parses G Q) Failed :=
  .bind check_parses fun _ => next_parses

theorem checkMatch_parses {what who line : Nat} : Ensures (Parses G Q) (checkMatch env what who line) (fun _ => Parses G Q) Failed := by
  refine .bind testnext_parses fun found => .ite (fun _ => .get_bind fun ls parses => ?_) fun _ _ parses => parses
  exact .ite (fun _ => .at_state syntaxerror_parses parses) fun _ => .at_state syntaxerror_parses parses

theorem strCheckname_parses : Ensures (Parses G Q) (strCheckname env) (fun _ => Parses G Q) Failed := by
  refine .bind check_parses fun _ => .get_bind fun ls parses => ?_
  exact .bind (.at_state next_parses parses) fun _ _ parses => parses

theorem codestring_parses {s : TString} :
    Ensures (Parses G Q) (codestring env s) (fun e => Parses G fun fs => Q fs ∧ ∃ i, e = initExp .vk i) Failed :=
  .bind (gen_parses onConstants_tame) fun i _ parses => ⟨⟨parses.current, i, rfl⟩, parses.enclosing, parses.closed⟩

theorem checkname_parses :
    Ensures (Parses G Q) (checkname env) (fun e => Parses G fun fs => Q fs ∧ ∃ i, e = initExp .vk i) Failed :=
  .bind strCheckname_parses fun _ => codestring_parses

end

/-! ## Variables -/

theorem Quiet.refl (fs : FuncState N) : Quiet fs fs := .of_same rfl rfl rfl rfl rfl ⟨rfl, rfl, rfl⟩

theorem markBlocks_breaklists (level : Nat) (bl : List BlockCnt) :
    (markBlocks level bl).map BlockCnt.breaklist = bl.map BlockCnt.breaklist := by
  induction bl with
  | nil => rfl
  | cons b previous inductionHypothesis =>
    simp only [markBlocks]
    split
    · simp [inductionHypothesis]
    · rfl

theorem markupval_quiet (level : Nat) (fs : FuncState N) : Quiet fs (markupval level fs) :=
  .of_same rfl rfl (markBlocks_breaklists level fs.bl) rfl rfl ⟨rfl, rfl, rfl⟩

theorem indexupvalue_quiet {name : TString} {k : ExpKind} {info : Int} {i : Nat} (ran : indexupvalue name k info fs = .ok i fs') :
    Quiet fs fs' := by
  have kept : Ensures (· = fs) (indexupvalue name k info : CodeM N Nat) (fun _ fs' => Quiet fs fs') fun _ => True := by
    refine .get_bind fun fs₁ same => ?_
    rw [same]
    split
    · rintro _ rfl
      exact .refl _
    · have within : Ensures (· = fs) (checklimit (fs.upvalues.length + 1 : Nat) maxUpvalues (bytes "upvalues") : CodeM N Unit)
          (fun _ => (· = fs)) fun _ => True :=
        .get_bind fun _ same => .ite (fun _ _ _ => trivial) fun _ _ isFs => isFs.trans same
      have grown : Ensures (· = fs) (growVector fs.upvalues.length maxInt [] : CodeM N Unit) (fun _ => (· = fs)) fun _ => True :=
        .ite (fun _ _ _ => trivial) fun _ _ same => same
      refine within.bind fun _ => grown.bind fun _ => ?_
      rintro _ rfl
      exact .of_same rfl rfl rfl rfl rfl ⟨rfl, rfl, rfl⟩
  have reached := kept fs rfl
  rw [ran] at reached
  exact reached

theorem searchvarFrom_lt {n : TString} {bound v : Nat} (found : searchvarFrom fs n bound = some v) : v < bound := by
  induction bound with
  | zero => cases found
  | succ bound inductionHypothesis =>
    simp only [searchvarFrom] at found
    split at found
    · cases found
      exact Nat.lt_succ_self _
    · exact Nat.lt_succ_of_lt (inductionHypothesis found)

/-- What `singlevaraux` finds. -/
theorem singlevaraux_quiet {n : TString} {base : Bool} {before after : List (FuncState N)} {k : ExpKind} {info : Int}
    (found : singlevaraux n base before = .ok ((k, info), after)) :
    List.Forall₂ Quiet before after ∧ (k = .vglobal ∨ k = .vupval ∨ k = .vlocal ∧ ∀ fs ∈ after.head?, info < fs.nactvar) := by
  induction before generalizing base k info after with
  | nil =>
    cases found
    exact ⟨.nil, .inl rfl⟩
  | cons fs prev inductionHypothesis =>
    rw [singlevaraux] at found
    split at found
    · next v isLocal =>
      cases found
      cases base with
      | true => exact ⟨.cons (.refl fs) (List.forall₂_same.2 fun fs _ => .refl fs), .inr (.inr ⟨rfl, by simpa using searchvarFrom_lt isLocal⟩)⟩
      | false =>
        refine ⟨.cons (markupval_quiet v fs) (List.forall₂_same.2 fun fs _ => .refl fs), .inr (.inr ⟨rfl, ?_⟩)⟩
        simpa [markupval] using searchvarFrom_lt isLocal
    · split at found
      · cases found
      · next global =>
        cases found
        exact ⟨.cons (.refl fs) (inductionHypothesis global).1, .inl rfl⟩
      · next upper =>
        split at found
        · next marked =>
          cases found
          exact ⟨.cons (indexupvalue_quiet marked) (inductionHypothesis upper).1, .inr (.inl rfl)⟩
        · cases found

section

variable {F : CodeFrame} {L : Multiset Int} {k : Nat} [GafqNumber N] {env : Env N}

omit [GafqNumber N] in
theorem enclosing_quiet {prev prev' : List (FuncState N)} (enclosing : List.Forall₂ (fun P fs => Tame P ∧ P fs) G prev)
    (quiet : List.Forall₂ Quiet prev prev') : List.Forall₂ (fun P fs => Tame P ∧ P fs) G prev' := by
  induction enclosing generalizing prev' with
  | nil =>
    cases quiet
    exact .nil
  | cons first _ inductionHypothesis =>
    cases quiet with
    | cons here rest =>
      obtain ⟨tame, holds⟩ := first
      exact .cons ⟨tame, Tame.quiet _ _ here holds⟩ (inductionHypothesis rest)

/-- A variable that is no table access. -/
theorem name_gives {kind : ExpKind} {info : Int} (isName : kind = .vglobal ∨ kind = .vupval ∨ kind = .vlocal ∧ info < F.nactvar)
    (holds : Holds F L k fs) : Gives F L k (initExp kind info) fs ∧ kind.IsVariable := by
  have other : kind ≠ .vvoid ∧ kind ≠ .vjmp ∧ kind ≠ .vrelocable ∧ kind ≠ .vcall ∧ kind ≠ .vvararg ∧ kind ≠ .vnonreloc ∧ kind ≠ .vindexed := by
    obtain rfl | rfl | ⟨rfl, -⟩ := isName <;> simp
  obtain ⟨nonvoid, nonjmp, nonrelocable, noncall, nonvararg, nonreloc, nonindexed⟩ := other
  refine ⟨⟨?_, nonvoid, fun _ => ⟨rfl, rfl⟩, fun isLocal => ?_, fun isOpen => ?_, fun _ relocable => absurd relocable nonrelocable⟩, ?_⟩
  · rw [regs_of_operands nonreloc noncall, operands_of_ne nonindexed, Nat.zero_add]
    exact holds.addLists nonjmp rfl rfl
  · obtain rfl | rfl | ⟨-, active⟩ := isName
    · cases isLocal
    · cases isLocal
    · exact active
  · exact absurd isOpen (not_or.2 ⟨noncall, nonvararg⟩)
  · obtain rfl | rfl | ⟨rfl, -⟩ := isName <;> simp [ExpKind.IsVariable]

theorem singlevar_parses :
    Ensures (Parses G (Holds F L k)) (singlevar env) (fun e => Parses G fun fs => Gives F L k e fs ∧ e.k.IsVariable) Failed := by
  refine .bind strCheckname_parses fun varname => .get_bind fun ls parses => ?_
  split
  · next kind info fs prev found =>
    obtain ⟨quiet, isName⟩ := singlevaraux_quiet found
    cases quiet with
    | cons here rest =>
      have holds : Holds F L k fs := Tame.quiet _ _ here parses.current
      have named : kind = .vglobal ∨ kind = .vupval ∨ kind = .vlocal ∧ info < F.nactvar := by
        rw [← holds.room.nactvar]
        simpa using isName
      have stored : Ensures (· = ls) (set { ls with fs, prev } : CompileM N Unit) (fun _ => Parses G (Holds F L k)) Failed :=
        .set fun _ _ => ⟨holds, enclosing_quiet parses.enclosing rest, parses.closed⟩
      refine stored.bind fun _ => .ite (fun global => ?_) fun _ ls parses => ?_
      · refine .bind (gen_parses onConstants_tame) fun info => ?_
        exact fun ls parses => parses.withFs (name_gives (.inl global) parses.current)
      · exact parses.withFs (name_gives named parses.current)
  · rintro _ rfl
    exact parses.failed
  · rintro _ rfl
    exact parses.failed

/-! ## Functions -/

/-- The frame of a whole function. -/
def outermost : CodeFrame := ⟨0, [], [], 0, True⟩

omit [GafqNumber N] in
theorem newFuncState_idle (address : Nat) : Idle outermost 0 (newFuncState address : FuncState N) := by
  refine ⟨0, [], rfl, ⟨⟨⟨_, ⟨address, .refl⟩, rfl, rfl, rfl, rfl, by simp [outermost]⟩, ?_⟩, .of_noJump rfl⟩⟩
  exact ⟨rfl, by simp [newFuncState], by simp [newFuncState], by simp [newFuncState], by simp [newFuncState]⟩

omit [GafqNumber N] in
theorem openFunc_parses [tame : Tame Q] :
    Ensures (Parses G Q) (openFunc : CompileM N Unit) (fun _ => Parses (Q :: G) (Idle outermost 0)) Failed :=
  .modify fun ls parses => ⟨newFuncState_idle ls.address, .cons ⟨tame, parses.current⟩ parses.enclosing, parses.closed⟩

omit [GafqNumber N] in
/-- After the final `return` no list is pending. -/
theorem finalReturn_finished : Ensures (Idle outermost 0) (ret 0 0 : CodeM N Unit) (fun _ => Finished) Stopped := by
  refine ensures_idle fun nactvar breaklists length => .bind (codeABC_holds (by decide)) fun _ => ?_
  rintro fs ⟨holds, coded⟩
  obtain ⟨c, reachable, rfl, live, loops, blocks, -⟩ := holds.listed
  have none : c.fs.bl.map BlockCnt.breaklist = [] := blocks.trans (List.length_eq_zero_iff.1 length)
  exact ⟨c, reachable, rfl, live, loops, List.map_eq_nil_iff.1 none, coded.jpc⟩

theorem anchorToken_parses [Tame Q] : Ensures (Parses G Q) (anchorToken env) (fun _ => Parses G Q) Failed := by
  refine .get_bind fun ls parses => .ite (fun _ => .at_state newString_parses parses) fun _ => ?_
  rintro _ rfl
  exact parses

/-- `close_func` puts the function to the others that are finished, and goes on with the enclosing one. -/
theorem closeFunc_parses [Tame Q] : Ensures (Parses (Q :: G) (Idle outermost 0)) (closeFunc env) (fun _ => Parses G Q) Failed := by
  refine .bind (gen_parses removevars_idle) fun _ => .bind (gen_parses finalReturn_finished) fun _ => .get_bind fun ls parses => ?_
  cases enclosing : ls.prev with
  | nil =>
    have held := parses.enclosing
    rw [enclosing] at held
    cases held
  | cons fs prev =>
    have held := parses.enclosing
    rw [enclosing] at held
    obtain ⟨⟨tame, holds⟩, rest⟩ := List.forall₂_cons.1 held
    have stored : Ensures (· = ls) (set { ls with fs, prev, closed := ls.closed ++ [ls.fs] } : CompileM N Unit) (fun _ => Parses G Q) Failed := by
      refine .set fun _ _ => ⟨holds, rest, fun fs member => ?_⟩
      obtain member | member := List.mem_append.1 member
      · exact parses.closed fs member
      · rw [List.mem_singleton.1 member]
        exact parses.current
    exact stored.bind fun _ => .bind anchorToken_parses fun _ _ parses => parses

/-- The main function is the last one. -/
theorem closeFunc_main :
    Ensures (Parses [] (Idle outermost 0)) (closeFunc env)
      (fun _ ls => ls.prev = [] ∧ ls.fs ∈ ls.closed ∧ ∀ fs ∈ ls.closed, Finished fs) Failed := by
  refine .bind (gen_parses removevars_idle) fun _ => .bind (gen_parses finalReturn_finished) fun _ => .get_bind fun ls parses => ?_
  have none : ls.prev = [] := List.forall₂_nil_left_iff.1 parses.enclosing
  have stored : Ensures (· = ls) (set { ls with closed := ls.closed ++ [ls.fs] } : CompileM N Unit)
      (fun _ ls => ls.prev = [] ∧ ls.fs ∈ ls.closed ∧ ∀ fs ∈ ls.closed, Finished fs) Failed := by
    refine .set fun _ _ => ⟨none, by simp, fun fs member => ?_⟩
    obtain member | member := List.mem_append.1 member
    · exact parses.closed fs member
    · rw [List.mem_singleton.1 member]
      exact parses.current
  split
  · exact stored.bind fun _ _ holds => holds
  · next isCons => cases none.symm.trans isCons

end

end Gafq.Compiler
