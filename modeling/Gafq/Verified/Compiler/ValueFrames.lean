import Gafq.Verified.Compiler.BlockFrames

/-! # What lists of expressions hold

Assignments, calls, constructors and `return` take the values of several expressions: all but the last
one are in registers, and the last one can still be open.
-/

namespace Gafq.Compiler

open Code Base

variable {N : Type} {F : CodeFrame} {L : Multiset Int} {k : Nat} {fs fs' : FuncState N} {e : ExpDesc N}

/-- The values of `n` expressions, the last of which is `e`. -/
def Values (F : CodeFrame) (L : Multiset Int) (k n : Nat) (e : ExpDesc N) (fs : FuncState N) : Prop :=
  n = 0 ∧ e.k = .vvoid ∧ Holds F L k fs ∨ ∃ m, n = m + 1 ∧ Gives F L (m + k) e fs

instance {n : Nat} : Tame (Values F L k n e) where
  quiet fs fs' quiet := by
    rintro (⟨none, void, holds⟩ | ⟨m, some, gives⟩)
    · exact .inl ⟨none, void, Tame.quiet fs fs' quiet holds⟩
    · exact .inr ⟨m, some, Tame.quiet fs fs' quiet gives⟩
  stopped fs := by
    rintro (⟨-, -, holds⟩ | ⟨m, -, gives⟩)
    · exact holds.stopped
    · exact gives.holds.stopped

/-- `reserveregs` with a count that is not negative. -/
theorem reserveregs_of_nonneg {n : Int} {m : Nat} (nonneg : 0 ≤ n) (enough : (m : Int) ≤ n + k) :
    Ensures (Holds F L k) (reserveregs n : CodeM N Unit) (fun _ => Holds F L m) Stopped := by
  obtain ⟨n, rfl⟩ := Int.eq_ofNat_of_zero_le nonneg
  exact .weaken reserveregs_holds (fun _ holds => holds) fun _ _ holds => holds.less (by omega)

/-- Variables without a value get `nil`. -/
theorem fillNil_holds {nvars n : Nat} :
    Ensures (Holds F L (n + k))
      (if (nvars : Int) - n > 0 then do
        let fs ← get
        reserveregs ((nvars : Int) - n)
        codeNil fs.freereg ((nvars : Int) - n)
      else pure () : CodeM N Unit) (fun _ => Holds F L (max nvars n + k)) Stopped := by
  refine .ite (fun more => .get_bind fun fs holds => ?_) fun enough => ?_
  · have reserved : Ensures (Holds F L (n + k)) (reserveregs ((nvars : Int) - n) : CodeM N Unit)
        (fun _ => Holds F L (max nvars n + k)) Stopped := reserveregs_of_nonneg (by omega) (by omega)
    exact (reserved.at_state holds).bind fun _ => codeNil_holds
  · exact fun fs holds => holds.less (by omega)

/-- A call or `...` provides as many values as are missing. -/
theorem adjustOpen_holds {nvars m : Nat} (isOpen : e.hasmultret) :
    Ensures (Gives F L (m + k) e)
      (do
        setreturns e (max ((nvars : Int) - (m + 1 : Nat) + 1) 0)
        if max ((nvars : Int) - (m + 1 : Nat) + 1) 0 > 1 then reserveregs (max ((nvars : Int) - (m + 1 : Nat) + 1) 0 - 1))
      (fun _ => Holds F L (max nvars (m + 1) + k)) Stopped := by
  refine .bind (setreturns_holds isOpen) fun _ => .ite (fun more => ?_) fun enough => ?_
  · exact reserveregs_of_nonneg (by omega) (by omega)
  · exact fun fs holds => holds.less (by omega)

section

variable [GafqNumber N] {env : Env N}

/-- After `adjust_assign` there are as many values as variables, or more. -/
theorem adjustAssign_holds {nvars n : Nat} :
    Ensures (Values F L k n e) (adjustAssign env nvars n e) (fun _ => Holds F L (max nvars n + k)) Stopped := by
  refine .ite (fun isOpen => ?_) fun closed => ?_
  · rintro fs (⟨-, void, -⟩ | ⟨m, rfl, gives⟩)
    · obtain kind | kind := isOpen <;> simp [kind] at void
    · exact adjustOpen_holds isOpen fs gives
  · refine .ite (fun some => ?_) fun none => ?_
    · have closed : Ensures (Values F L k n e) (exp2nextreg env e) (fun _ => Holds F L (n + k)) Stopped := by
        rintro fs (⟨-, void, -⟩ | ⟨m, rfl, gives⟩)
        · exact absurd void some
        · refine (Ensures.weaken exp2nextreg_holds (fun _ gives => gives) fun _ fs holds => ?_) fs gives
          exact holds.1.less (by omega)
      exact closed.bind fun _ => fillNil_holds
    · refine .weaken fillNil_holds ?_ fun _ _ holds => holds
      rintro fs (⟨rfl, -, holds⟩ | ⟨m, -, gives⟩)
      · exact holds.less (by omega)
      · exact absurd (not_not.1 none) gives.fits.nonvoid

/-- The last register is stored and given up. -/
theorem storeLast_holds {lh : ExpDesc N} (isVariable : lh.k.IsVariable) :
    Ensures (Holds F L (1 + k)) (storeLast env lh) (fun _ => Holds F L k) Stopped := by
  refine .get_bind fun fs holds => .at_state (storevar_holds isVariable) ?_
  have inReg : InReg (initExp .vnonreloc ((fs.freereg : Int) - 1) : ExpDesc N) ((fs.freereg : Int) - 1) := ⟨rfl, rfl, rfl, rfl⟩
  refine inReg.gives (holds.less ?_)
  rw [regs_of_nonreloc rfl]
  exact Nat.add_le_add_right (temp_le ..) k

end

/-- An expression with one value. -/
theorem setoneret_gives : Ensures (Gives F L k e) (setoneret e) (fun e' => Gives F L k e') Stopped := by
  by_cases isOpen : e.hasmultret
  · refine .weaken (setoneret_discharges (k := e.regs F.nactvar + k) isOpen) (fun _ gives => ⟨gives.holds, gives.fits⟩) ?_
    rintro e' fs ⟨holds, fits, discharged⟩
    have := discharged.regs
    exact ⟨holds.less (by omega), fits⟩
  · simp only [ExpDesc.hasmultret, not_or] at isOpen
    exact .ite (fun call => absurd call isOpen.1) fun _ => .ite (fun vararg => absurd vararg isOpen.2) fun _ _ gives => gives

/-! ## Conflicts -/

theorem useCopy_isVariable {v : ExpDesc N} {extra : Int} (isVariable : e.k.IsVariable) : (useCopy v extra e).k.IsVariable := by
  unfold useCopy
  split
  · exact isVariable
  · exact isVariable

/-- A local variable is the same in every state. -/
theorem gives_of_local (isLocal : e.k = .vlocal) (fits : Fits F e fs) (holds : Holds F (e.lists + L) (e.regs F.nactvar + k) fs') :
    Gives F L k e fs' := by
  refine ⟨holds, fits.nonvoid, fits.simple, fits.isLocal, fun isOpen => ?_, fun _ relocable => ?_⟩
  · simp [ExpDesc.hasmultret, isLocal] at isOpen
  · simp [isLocal] at relocable

/-- `check_conflict` copies the local variable `e`. -/
theorem checkConflict_gives {lh : List (ExpDesc N)} (isLocal : e.k = .vlocal) (known : ∀ l ∈ lh, l.k.IsVariable) :
    Ensures (Gives F L k e) (checkConflict lh e) (fun chain fs => Gives F L k e fs ∧ ∀ l ∈ chain, l.k.IsVariable) Stopped := by
  refine .get_bind fun fs gives => .ite (fun _ => ?_) fun _ => ?_
  · refine .bind (.at_state (codeABC_holds (by decide)) gives.holds) fun _ => ?_
    refine .bind (.weaken reserveregs_one (fun _ holds => holds.1) fun _ _ holds => holds) fun _ => ?_
    refine fun fs' holds => ⟨gives_of_local isLocal gives.fits (holds.less (by omega)), ?_⟩
    simp only [List.mem_map]
    rintro _ ⟨l, member, rfl⟩
    exact useCopy_isVariable (known l member)
  · rintro _ rfl
    exact ⟨gives, known⟩

/-! ## Calls -/

/-- The arguments of a call: none, open ones, or one that is still to be put into a register. -/
def Arguments (F : CodeFrame) (L : Multiset Int) (k : Nat) (e : ExpDesc N) (fs : FuncState N) : Prop :=
  (e.k = .vvoid ∨ e.hasmultret) ∧ Holds F L k fs ∨ ¬ e.hasmultret ∧ Gives F L k e fs

instance : Tame (Arguments F L k e) where
  quiet fs fs' quiet := by
    rintro (⟨kind, holds⟩ | ⟨closed, gives⟩)
    · exact .inl ⟨kind, Tame.quiet fs fs' quiet holds⟩
    · exact .inr ⟨closed, Tame.quiet fs fs' quiet gives⟩
  stopped fs := by
    rintro (⟨-, holds⟩ | ⟨-, gives⟩)
    · exact holds.stopped
    · exact gives.holds.stopped

/-- The last argument is open. -/
theorem openArguments_holds : Ensures (Gives F L k e) (setreturns e multRet) (fun _ => Arguments F L k e) Stopped := by
  by_cases isOpen : e.hasmultret
  · exact .weaken (setreturns_holds isOpen) (fun _ gives => gives) fun _ _ holds => .inl ⟨.inr isOpen, holds.less (by omega)⟩
  · have closed : ¬ e.hasmultret := isOpen
    simp only [ExpDesc.hasmultret, not_or] at isOpen
    exact .ite (fun call => absurd call isOpen.1) fun _ => .ite (fun vararg => absurd vararg isOpen.2) fun _ _ gives => .inr ⟨closed, gives⟩

section

variable [GafqNumber N] {env : Env N}

/-- The instruction of a call or of `...` that has just been coded. -/
theorem open_gives {kind : ExpKind} {pc : Nat} (isOpen : kind = .vcall ∨ kind = .vvararg)
    (holds : Holds F L ((initExp kind pc : ExpDesc N).regs F.nactvar + k) fs) (below : pc < fs.pc) (free : Free (fs.code pc)) :
    Gives F L k (initExp kind pc) fs := by
  have other : kind ≠ .vvoid ∧ kind ≠ .vjmp ∧ kind ≠ .vlocal ∧ kind ≠ .vrelocable := by
    obtain rfl | rfl := isOpen <;> simp
  refine ⟨holds.addLists other.2.1 rfl rfl, other.1, fun _ => ⟨rfl, rfl⟩, fun isLocal => absurd isLocal other.2.2.1, fun _ => ?_,
    fun _ relocable => absurd relocable other.2.2.2⟩
  exact ⟨below, free⟩

/-- A call of the function in the register `f.info`. -/
theorem codeCall_gives {f args : ExpDesc N} {line h : Nat} (low : k ≤ f.info) (high : f.info ≤ 254) (less : k ≤ h) :
    Ensures (Arguments F L h args) (codeCall env f args line) (fun e => Gives F L k e) Stopped := by
  have called (nparams : Int) : Ensures (Holds F L k)
      (do
        let pc ← codeABC .call f.info (nparams + 1) 2
        fixline line
        modify fun fs => { fs with freereg := f.info + 1 }
        pure (initExp .vcall pc) : CodeM N (ExpDesc N)) (fun e => Gives F L k e) Stopped := by
    refine .bind (codeABC_holds (by decide)) fun pc => ?_
    have pinned : Ensures (fun fs => Holds F L k fs ∧ Coded (instrABC .call f.info (nparams + 1) 2) pc fs) (fixline line : CodeM N Unit)
        (fun _ => Holds (F.pin pc) L k) Stopped := by
      refine .weaken fixline_holds ?_ fun _ _ holds => holds
      rintro fs ⟨holds, coded⟩
      refine holds.pin (by have := coded.pc; omega) ?_
      rw [coded.code]
      exact free_of_opcode (opcode?_instrABC ..) (by decide)
    have freed : Ensures (Holds (F.pin pc) L k) (modify fun fs => { fs with freereg := f.info + 1 } : CodeM N Unit)
        (fun _ => Holds (F.pin pc) L (1 + k)) Stopped := by
      refine .modify fun fs holds => ?_
      have room := holds.room
      exact holds.mild ⟨rfl, rfl, rfl, List.Subset.refl _, fun _ => .refl _⟩
        ⟨room.nactvar, room.locals, by simp only; omega, by simp only; omega, room.maxstacksize⟩
    refine pinned.bind fun _ => freed.bind fun _ fs holds => open_gives (.inl rfl) (holds.unpin.less ?_) holds.pinned.1 holds.pinned.2
    rw [regs_of_call rfl]
  refine .ite (fun isOpen => ?_) fun closed => ?_
  · have given : Ensures (Arguments F L h args) (pure multRet : CodeM N Int) (fun _ => Holds F L k) Stopped := by
      rintro fs (⟨-, holds⟩ | ⟨closed, -⟩)
      · exact holds.less less
      · exact absurd isOpen closed
    exact given.bind called
  · have counted : Ensures (Holds F L k) (do let fs ← get; pure (fs.freereg - (f.info + 1)) : CodeM N Int) (fun _ => Holds F L k) Stopped := by
      refine .get_bind fun fs holds => ?_
      rintro _ rfl
      exact holds
    have rest := counted.bind called
    refine .ite (fun some => ?_) fun none => ?_
    · have given : Ensures (Arguments F L h args) (exp2nextreg env args) (fun _ => Holds F L k) Stopped := by
        rintro fs (⟨void | isOpen, -⟩ | ⟨-, gives⟩)
        · exact absurd void some
        · exact absurd isOpen closed
        · exact (Ensures.weaken exp2nextreg_holds (fun _ gives => gives) fun _ _ holds => holds.1.less (by omega)) fs gives
      exact given.bind fun _ => rest
    · refine rest.weaken ?_ fun _ _ gives => gives
      rintro fs (⟨-, holds⟩ | ⟨-, gives⟩)
      · exact holds.less less
      · exact absurd (not_not.1 none) gives.fits.nonvoid

/-- The instruction of `...`. -/
theorem vararg_gives : Ensures (Holds F L k) (codeABC .vararg 0 1 0 : CodeM N Nat) (fun pc => Gives F L k (initExp .vvararg pc)) Stopped := by
  refine .weaken (codeABC_holds (by decide)) (fun _ holds => holds) ?_
  rintro pc fs ⟨holds, coded⟩
  refine open_gives (.inr rfl) (holds.less ?_) (by have := coded.pc; omega) ?_
  · simp [ExpDesc.regs, ExpDesc.operands, initExp]
  · rw [coded.code]
    exact free_of_opcode (opcode?_instrABC ..) (by decide)

/-! ## Returned values -/

omit [GafqNumber N] in
/-- The call whose values are returned can become a tail call. -/
theorem openReturn_holds {α : Type} {nret m : Nat} {values : α} (isOpen : e.hasmultret) :
    Ensures (Gives F L (m + k) e)
      (do
        setreturns e multRet
        if e.k = .vcall ∧ nret = 1 then modifyCode e fun i => setOpcode i .tailcall
        pure values)
      (fun _ => Holds F L k) Stopped := by
  have stable (fs fs' : FuncState N) (steady : Steady fs fs') : Free (getcode fs e) → Free (getcode fs' e) := (steady.code _).free.2
  have allValues : Ensures (Gives F L (m + k) e) (setreturns e multRet) (fun _ fs => Holds F L k fs ∧ Free (getcode fs e)) Stopped := by
    refine .weaken (Keeps.carry setreturns_keeps stable (setreturns_holds isOpen)) (fun _ gives => ⟨gives, (gives.fits.isOpen isOpen).2⟩) ?_
    exact fun _ fs holds => ⟨holds.1.less (by omega), holds.2⟩
  have stays (i : Instruction) (_ : Free i) : Free (setOpcode i .tailcall) :=
    free_of_opcode (opcode?_setOpcode i .tailcall) (by decide)
  refine allValues.bind fun _ => .ite (fun _ => ?_) fun _ fs holds => holds.1
  exact .bind (modifyCode_holds stays) fun _ _ holds => holds.1

theorem retValues_holds {nret m : Nat} : Ensures (Gives F L (m + k) e) (retValues env e nret) (fun _ => Holds F L k) Stopped := by
  refine .get_bind fun fs gives => .ite (fun isOpen => ?_) fun _ => .ite (fun _ => ?_) fun _ => ?_
  · exact .at_state (openReturn_holds isOpen) gives
  · exact .bind (.at_state exp2anyreg_holds gives) fun _ fs holds => holds.1.less (by omega)
  · exact .bind (.at_state exp2nextreg_holds gives) fun _ fs holds => holds.1.less (by omega)

/-! ## Constructors -/

/-- The last item of a constructor, which is still to be stored, or none. -/
def Item (F : CodeFrame) (L : Multiset Int) (k : Nat) (cc : ConsControl N) (fs : FuncState N) : Prop :=
  cc.v.k = .vvoid ∧ Holds F L k fs ∨ cc.tostore ≠ 0 ∧ Gives F L k cc.v fs

instance {cc : ConsControl N} : Tame (Item F L k cc) where
  quiet fs fs' quiet := by
    rintro (⟨void, holds⟩ | ⟨some, gives⟩)
    · exact .inl ⟨void, Tame.quiet fs fs' quiet holds⟩
    · exact .inr ⟨some, Tame.quiet fs fs' quiet gives⟩
  stopped fs := by
    rintro (⟨-, holds⟩ | ⟨-, gives⟩)
    · exact holds.stopped
    · exact gives.holds.stopped

theorem item_holds {cc : ConsControl N} (some : cc.v.k ≠ .vvoid) :
    Ensures (Item F L k cc) (exp2nextreg env cc.v) (fun _ => Holds F L k) Stopped := by
  rintro fs (⟨void, -⟩ | ⟨-, gives⟩)
  · exact absurd void some
  · exact (Ensures.weaken exp2nextreg_holds (fun _ gives => gives) fun _ _ holds => holds.1.less (by omega)) fs gives

/-- An item is put into the register behind the others, which are stored when they are many. -/
theorem closelistfield_holds {cc : ConsControl N} (low : k ≤ cc.t.info) (high : cc.t.info ≤ 254) :
    Ensures (Item F L (1 + k) cc) (closelistfield env cc)
      (fun cc' fs => Holds F L (1 + k) fs ∧ cc'.v.k = .vvoid ∧ cc'.t = cc.t) Stopped := by
  refine .ite (fun none => ?_) fun some => ?_
  · rintro fs (⟨void, holds⟩ | ⟨-, gives⟩)
    · exact ⟨holds, void, rfl⟩
    · exact absurd none gives.fits.nonvoid
  · refine .bind (item_holds some) fun v => .ite (fun _ => ?_) fun _ => ?_
    · have stored : Ensures (Holds F L (1 + k)) (Code.setlist cc.t.info cc.na cc.tostore : CodeM N Unit) (fun _ => Holds F L (1 + k)) Stopped :=
        (setlist_holds low high).weaken (fun _ holds => holds.less (by omega)) fun _ _ holds => holds
      exact stored.bind fun _ fs holds => ⟨holds, rfl, rfl⟩
    · exact fun fs holds => ⟨holds, rfl, rfl⟩

theorem lastlistfield_holds {cc : ConsControl N} (low : k ≤ cc.t.info) (high : cc.t.info ≤ 254) :
    Ensures (Item F L (1 + k) cc) (lastlistfield env cc) (fun _ => Holds F L (1 + k)) Stopped := by
  have stored {n : Int} : Ensures (Holds F L (1 + k)) (Code.setlist cc.t.info cc.na n : CodeM N Unit) (fun _ => Holds F L (1 + k)) Stopped :=
    .weaken (setlist_holds low high) (fun _ holds => holds.less (by omega)) fun _ _ holds => holds
  refine .ite (fun none => ?_) fun some => .ite (fun isOpen => ?_) fun _ => .ite (fun some => ?_) fun none => ?_
  · rintro fs (⟨-, holds⟩ | ⟨some, -⟩)
    · exact holds
    · exact absurd none some
  · have closed : Ensures (Item F L (1 + k) cc) (setreturns cc.v multRet) (fun _ => Holds F L (1 + k)) Stopped := by
      rintro fs (⟨void, -⟩ | ⟨-, gives⟩)
      · obtain kind | kind := isOpen <;> simp [kind] at void
      · exact (Ensures.weaken (setreturns_holds isOpen) (fun _ gives => gives) fun _ _ holds => holds.less (by omega)) fs gives
    exact closed.bind fun _ => stored.bind fun _ _ holds => holds
  · exact .bind (item_holds some) fun _ => stored.bind fun _ _ holds => holds
  · have empty : Ensures (Item F L (1 + k) cc) (Code.setlist cc.t.info cc.na cc.tostore : CodeM N Unit) (fun _ => Holds F L (1 + k)) Stopped := by
      refine stored.weaken ?_ fun _ _ holds => holds
      rintro fs (⟨-, holds⟩ | ⟨-, gives⟩)
      · exact holds
      · exact absurd (not_not.1 none) gives.fits.nonvoid
    exact empty.bind fun _ _ holds => holds

end

end Gafq.Compiler
