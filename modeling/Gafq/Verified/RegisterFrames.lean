import Gafq.Verified.ExpressionFrames

/-! # Values in registers

The functions of `gcode.c` that put the value of an expression into a register, or make an operand of
it, give the lists of its jumps their targets.
-/

namespace Gafq.Code

open Gafq.Base

variable {N : Type} {F : CodeFrame} {L : Multiset Int} {k : Nat} {fs fs' : FuncState N} {e e' : ExpDesc N}

theorem codeLoads_holds {isJump : Bool} {reg : Int} :
    Ensures (Holds F L k) (codeLoads isJump reg : CodeM N (Int × Int)) (fun _ => Holds F L k) Stopped := by
  have jumped : Ensures (Holds F L k) (if isJump then pure noJump else jump : CodeM N Int) (fun fj => Holds F ({fj} + L) k) Stopped :=
    .ite (fun _ _ holds => holds.none) fun _ => jump_holds
  refine .ite_bind jumped fun fj => .bind codeLabel_holds fun _ => .bind codeLabel_holds fun _ => ?_
  exact .bind patchtohere_holds fun _ _ holds => holds

/-- `exp2reg` gives all jumps of an expression their targets. -/
theorem closeLists_holds {reg : Int} :
    Ensures (Holds F ({e.t} + ({e.f} + L)) k) (closeLists e reg) (fun _ => Holds F L k) Stopped := by
  have swap : ({e.t} + ({e.f} + L) : Multiset Int) = {e.f} + ({e.t} + L) := add_left_comm ..
  have needed (needT : Bool) : Ensures (Holds F ({e.t} + ({e.f} + L)) k)
      (if needT then pure true else needvalue e.f : CodeM N Bool) (fun _ => Holds F ({e.t} + ({e.f} + L)) k) Stopped := by
    rw [swap]
    exact .ite (fun _ _ holds => holds) fun _ => needvalue_holds
  have loaded (need : Bool) : Ensures (Holds F ({e.t} + ({e.f} + L)) k)
      (if need then codeLoads (e.k = .vjmp) reg else pure (noJump, noJump) : CodeM N (Int × Int))
      (fun _ => Holds F ({e.f} + ({e.t} + L)) k) Stopped := by
    rw [← swap]
    exact .ite (fun _ => codeLoads_holds) fun _ _ holds => holds
  refine .bind needvalue_holds fun needT => .ite_bind (needed needT) fun need => .ite_bind (loaded need) fun loads => ?_
  exact .bind getlabel_holds fun _ => .bind patchlistaux_holds fun _ => patchlistaux_holds

/-- An expression that is in a register already. -/
theorem inReg_of_nojumps (holds : Holds F (e.lists + L) k fs) (kind : e.k = .vnonreloc) (none : ¬ e.hasjumps) :
    Holds F L k fs ∧ InReg e e.info := by
  have same : e.t = e.f := not_not.1 none
  rw [lists_of_ne (by simp [kind]), add_assoc, same] at holds
  have empty := holds.eq_noJump
  rw [empty] at holds
  exact ⟨holds.drop.drop, kind, rfl, same.trans empty, empty⟩

/-- An expression whose value is in a register. -/
theorem InReg.gives {reg : Int} (inReg : InReg e reg) (holds : Holds F L (e.regs F.nactvar + k) fs) : Gives F L k e fs :=
  ⟨inReg.holds holds, inReg.fits⟩

/-- The operand `o` of an instruction: a register or a constant. -/
structure IsOperand (nactvar : Nat) (e : ExpDesc N) (o : Int) : Prop where
  t : e.t = noJump
  f : e.f = noJump
  kind : e.k = .vnonreloc ∧ o = e.info ∨ e.k = .vk ∧ temp nactvar o = 0

namespace IsOperand

variable {nactvar : Nat} {o : Int}

theorem temp_eq (operand : IsOperand nactvar e o) : temp nactvar o = e.regs nactvar := by
  obtain ⟨kind, info⟩ | ⟨kind, constant⟩ := operand.kind
  · rw [regs_of_nonreloc kind, info]
  · simp [ExpDesc.regs, ExpDesc.operands, kind, constant]

theorem operands (operand : IsOperand nactvar e o) : e.operands nactvar = 0 := by
  obtain ⟨kind, -⟩ | ⟨kind, -⟩ := operand.kind <;> exact operands_of_ne (by simp [kind])

theorem ne_jmp (operand : IsOperand nactvar e o) : e.k ≠ .vjmp := by
  obtain ⟨kind, -⟩ | ⟨kind, -⟩ := operand.kind <;> simp [kind]

end IsOperand

theorem temp_rkAsK (nactvar : Nat) (x : Int) : temp nactvar (rkAsK x) = 0 := by
  refine if_neg fun isRegister => isRegister.1 ?_
  simp only [rkAsK, Int.toNat_natCast, isK, bne_iff_ne]
  intro none
  have bit := congrArg (Nat.testBit · 8) none
  have isBit : Nat.testBit 256 8 = true := by decide
  simp [bitRK, sizeB, isBit] at bit

theorem IsOperand.ne_indexed {o : Int} (operand : IsOperand F.nactvar e o) : e.k ≠ .vindexed := by
  obtain ⟨kind, -⟩ | ⟨kind, -⟩ := operand.kind <;> simp [kind]

/-- An expression that is not needed any more. -/
theorem freed_holds (other : e.k ≠ .vindexed) :
    Ensures (Holds F L (e.regs F.nactvar + k)) (freeexp e) (fun _ => Holds F L k) Stopped := by
  refine .weaken freeexp_holds (fun _ holds => holds) fun _ fs holds => ?_
  rwa [operands_of_ne other, Nat.zero_add] at holds

theorem IsOperand.freed {o : Int} (operand : IsOperand F.nactvar e o) :
    Ensures (Holds F L (e.regs F.nactvar + k)) (freeexp e) (fun _ => Holds F L k) Stopped :=
  freed_holds operand.ne_indexed

theorem InReg.freed {reg : Int} (inReg : InReg e reg) :
    Ensures (Holds F L (e.regs F.nactvar + k)) (freeexp e) (fun _ => Holds F L k) Stopped :=
  freed_holds (by simp [inReg.k])

theorem Fits.of_constant (kind : e.k = .vk) : Fits F e fs :=
  .of_discharged (by simp [ExpKind.IsDischarged, kind]) (by simp [kind])

/-- What `discharge2reg` does to an expression. -/
structure PutIn (reg : Int) (e e' : ExpDesc N) : Prop where
  t : e'.t = e.t
  f : e'.f = e.f
  kind : e'.k = .vnonreloc ∧ e'.info = reg ∨ e'.k = .vjmp ∧ e.k = .vjmp

theorem PutIn.plain {reg : Int} (putIn : PutIn reg e e') (other : e.k ≠ .vjmp) : e'.k ≠ .vjmp ∧ e'.k ≠ .vindexed := by
  obtain ⟨kind, -⟩ | ⟨-, isJump⟩ := putIn.kind
  · simp [kind]
  · exact absurd isJump other

section

variable [GafqNumber N] {env : Env N} {reg : Int}

theorem discharge2reg_holds :
    Ensures (fun fs => Holds F (e.lists + L) (e.operands F.nactvar + k) fs ∧ Fits F e fs) (discharge2reg env e reg)
      (fun e' fs => Holds F (e'.lists + L) k fs ∧ PutIn reg e e') Stopped := by
  refine .bind dischargevars_discharges fun e1 => ?_
  have before {m : CodeM N (ExpDesc N)} (valid : Discharged F e e1 → Ensures (Holds F (e1.lists + L) k) m
      (fun e' fs => Holds F (e'.lists + L) k fs ∧ PutIn reg e e') Stopped) :
      Ensures (fun fs => Holds F (e1.lists + L) k fs ∧ Fits F e1 fs ∧ Discharged F e e1) m
        (fun e' fs => Holds F (e'.lists + L) k fs ∧ PutIn reg e e') Stopped :=
    fun fs holds => valid holds.2.2 fs holds.1
  refine before fun discharged => ?_
  have inReg {fs : FuncState N} (other : e1.k ≠ .vjmp) (holds : Holds F (e1.lists + L) k fs) :
      Holds F (({ e1 with info := reg, k := .vnonreloc } : ExpDesc N).lists + L) k fs ∧
        PutIn reg e { e1 with info := reg, k := .vnonreloc } :=
    ⟨holds.relist rfl rfl other (by simp), discharged.t, discharged.f, .inl ⟨rfl, rfl⟩⟩
  split
  · next kind => exact .bind codeNil_holds fun _ fs holds => inReg (by simp [kind]) holds
  · next kind => exact .bind (codeABC_holds (by decide)) fun _ fs holds => inReg (by simp [kind]) holds.1
  · next kind => exact .bind (codeABC_holds (by decide)) fun _ fs holds => inReg (by simp [kind]) holds.1
  · next kind => exact .bind (codeABx_holds (by decide)) fun _ fs holds => inReg (by simp [kind]) holds.1
  · next kind =>
    exact .bind onConstants_holds fun _ => .bind (codeABx_holds (by decide)) fun _ fs holds => inReg (by simp [kind]) holds.1
  · next kind =>
    have relocated : Ensures (Holds F (e1.lists + L) k) (modifyCode e1 fun i => setArgA i reg) (fun _ => Holds F (e1.lists + L) k) Stopped :=
      relocate_holds (f := fun _ => reg)
    exact relocated.bind fun _ fs holds => inReg (by simp [kind]) holds
  · next kind =>
    refine .ite (fun _ => ?_) fun _ => fun fs holds => inReg (by simp [kind]) holds
    exact .bind (codeABC_holds (by decide)) fun _ fs holds => inReg (by simp [kind]) holds.1
  · next isNil isFalse isTrue isK isKnum isRelocable isNonreloc =>
    refine fun fs holds => ⟨holds, discharged.t, discharged.f, .inr ?_⟩
    have kind := discharged.kind
    cases isKind : e1.k <;> simp_all [ExpKind.IsDischarged]
    exact discharged.jmp isKind

/-- The value of an expression in any register. -/
theorem discharge2anyreg_holds :
    Ensures (fun fs => Holds F (e.lists + L) (e.regs F.nactvar + k) fs ∧ Fits F e fs) (discharge2anyreg env e)
      (fun e' fs => Holds F (e'.lists + L) (e'.regs F.nactvar + k) fs ∧ ∃ reg, PutIn reg e e') Stopped := by
  refine .ite (fun other => ?_) fun nonreloc => ?_
  · refine .bind (Keeps.fits reserveregs_keeps reserveregs_one) fun _ => .get_bind fun fs holds => ?_
    have enough := @operands_le_regs N e F.nactvar
    have before : Holds F (e.lists + L) (e.operands F.nactvar + (1 + k)) fs ∧ Fits F e fs := ⟨holds.1.less (by omega), holds.2⟩
    refine .weaken (.at_state discharge2reg_holds before) (fun _ same => same) ?_
    · rintro e' fs ⟨holds, putIn⟩
      refine ⟨holds.less (Nat.add_le_add_right ?_ k), _, putIn⟩
      obtain ⟨kind, -⟩ | ⟨kind, -⟩ := putIn.kind
      · rw [regs_of_nonreloc kind]
        exact temp_le ..
      · simp [ExpDesc.regs, ExpDesc.operands, kind]
  · exact fun fs holds => ⟨holds.1, e.info, rfl, rfl, .inl ⟨not_not.1 nonreloc, rfl⟩⟩

theorem exp2reg_holds :
    Ensures (fun fs => Holds F (e.lists + L) (e.operands F.nactvar + k) fs ∧ Fits F e fs) (exp2reg env e reg)
      (fun e' fs => Holds F L k fs ∧ InReg e' reg) Stopped := by
  refine .bind discharge2reg_holds fun e1 => .assume fun putIn => ?_
  have joined : Ensures (Holds F (e1.lists + L) k) (if e1.k = .vjmp then concat e1.t e1.info else pure e1.t : CodeM N Int)
      (fun t => Holds F ({t} + ({e1.f} + L)) k) Stopped := by
    refine .ite (fun kind => ?_) fun other => ?_
    · have lists : e1.lists + L = {e1.t} + ({e1.info} + ({e1.f} + L)) := by
        rw [lists_of_jmp kind]
        abel
      rw [lists]
      exact concat_holds
    · intro fs holds
      rwa [lists_of_ne other, add_assoc] at holds
  refine .ite_bind joined fun t => ?_
  have closed : Ensures (Holds F ({t} + ({e1.f} + L)) k)
      (if ({ e1 with t } : ExpDesc N).hasjumps then closeLists { e1 with t } reg else pure ()) (fun _ => Holds F L k) Stopped := by
    refine .ite (fun _ => closeLists_holds (e := { e1 with t })) fun none => ?_
    intro fs holds
    have same : t = e1.f := not_not.1 none
    subst same
    have empty := holds.eq_noJump
    rw [empty] at holds
    exact holds.drop.drop
  exact .when_bind closed fun _ fs holds => ⟨holds, rfl, rfl, rfl, rfl⟩

/-- The new register is the last one that is held. -/
theorem exp2nextreg_holds :
    Ensures (Gives F L k e) (exp2nextreg env e) (fun e' fs => Holds F L (1 + k) fs ∧ ∃ reg, InReg e' reg ∧ k ≤ reg ∧ reg ≤ 254) Stopped := by
  refine .bind dischargevars_gives fun e1 => ?_
  have freed : Ensures (fun fs => Gives F L k e1 fs ∧ Discharged F e e1) (freeexp e1)
      (fun _ fs => Holds F (e1.lists + L) (e1.operands F.nactvar + k) fs ∧ Fits F e1 fs) Stopped :=
    .weaken (Keeps.fits freeexp_keeps freeexp_holds) (fun _ gives => ⟨gives.1.holds, gives.1.fits⟩) fun _ _ holds => holds
  refine freed.bind fun _ => .bind (Keeps.fits reserveregs_keeps reserveregs_one) fun _ => .get_bind fun fs holds => ?_
  have low := holds.1.room.held
  have high := holds.1.room.freereg
  have before : Holds F (e1.lists + L) (e1.operands F.nactvar + (1 + k)) fs ∧ Fits F e1 fs := ⟨holds.1.less (by omega), holds.2⟩
  refine .weaken (.at_state exp2reg_holds before) (fun _ same => same) ?_
  rintro e' fs' ⟨holds, inReg⟩
  exact ⟨holds, _, inReg, by omega, by omega⟩

theorem exp2anyreg_holds :
    Ensures (Gives F L k e) (exp2anyreg env e) (fun e' fs => Holds F L (e'.regs F.nactvar + k) fs ∧ InReg e' e'.info) Stopped := by
  refine .bind dischargevars_gives fun e1 => .get_bind fun fs gives => ?_
  obtain ⟨gives, discharged⟩ := gives
  refine .ite (fun inReg => ?_) fun _ => .ite (fun temporary => ?_) fun _ => ?_
  · rintro _ rfl
    exact inReg_of_nojumps gives.holds inReg.1 inReg.2
  · have before : Holds F (e1.lists + L) (e1.operands F.nactvar + (e1.regs F.nactvar + k)) fs ∧ Fits F e1 fs := by
      rw [discharged.kind.operands, Nat.zero_add]
      exact ⟨gives.holds, gives.fits⟩
    refine .weaken (.at_state exp2reg_holds before) (fun _ same => same) ?_
    rintro e' fs' ⟨holds, inReg⟩
    rw [inReg.info, regs_of_nonreloc inReg.k, inReg.info, ← regs_of_nonreloc temporary.1]
    exact ⟨holds, inReg⟩
  · refine .weaken (.at_state exp2nextreg_holds gives) (fun _ same => same) ?_
    rintro e' fs' ⟨holds, reg, inReg, -⟩
    rw [regs_of_nonreloc inReg.k, inReg.info]
    exact ⟨holds.less (Nat.add_le_add_right (temp_le ..) k), inReg⟩

theorem exp2val_holds :
    Ensures (Gives F L k e) (exp2val env e)
      (fun e' fs => Gives F L k e' fs ∧ e'.t = noJump ∧ e'.f = noJump ∧ e'.k.IsDischarged) Stopped := by
  refine .ite (fun _ => ?_) fun none => ?_
  · refine .weaken exp2anyreg_holds (fun _ gives => gives) ?_
    rintro e' fs ⟨holds, inReg⟩
    exact ⟨inReg.gives holds, inReg.t, inReg.f, by simp [ExpKind.IsDischarged, inReg.k]⟩
  · refine .weaken dischargevars_gives (fun _ gives => gives) ?_
    rintro e' fs ⟨gives, discharged⟩
    have same : e'.t = e'.f := by
      rw [discharged.t, discharged.f]
      exact not_not.1 none
    have holds := gives.holds
    rw [ExpDesc.lists, same, add_assoc, add_assoc] at holds
    have empty := holds.eq_noJump
    exact ⟨gives, same.trans empty, empty, discharged.kind⟩

theorem exp2register_holds :
    Ensures (Gives F L k e) (exp2register env e)
      (fun r fs => Holds F L (r.1.regs F.nactvar + k) fs ∧ IsOperand F.nactvar r.1 r.2) Stopped := by
  refine .bind exp2anyreg_holds fun e' => ?_
  rintro fs ⟨holds, inReg⟩
  exact ⟨holds, inReg.t, inReg.f, .inl ⟨inReg.k, rfl⟩⟩

theorem exp2RK_holds :
    Ensures (Gives F L k e) (exp2RK env e)
      (fun r fs => Holds F L (r.1.regs F.nactvar + k) fs ∧ IsOperand F.nactvar r.1 r.2) Stopped := by
  refine .bind exp2val_holds fun e1 => .get_bind fun fs gives => ?_
  obtain ⟨gives, noTrue, noFalse, -⟩ := gives
  have register : Ensures (· = fs) (exp2register env e1)
      (fun r fs => Holds F L (r.1.regs F.nactvar + k) fs ∧ IsOperand F.nactvar r.1 r.2) Stopped := .at_state exp2register_holds gives
  have simple (constant : e1.k ∈ [.vknum, .vtrue, .vfalse, .vnil]) : Ensures (· = fs)
      (if fs.constants.nk ≤ maxIndexRK then do
        let info ← constantK env e1
        pure ({ e1 with info, k := .vk }, rkAsK info)
      else exp2register env e1)
      (fun r fs => Holds F L (r.1.regs F.nactvar + k) fs ∧ IsOperand F.nactvar r.1 r.2) Stopped := by
    refine .ite (fun _ => ?_) fun _ => register
    have other : e1.k ≠ .vjmp := by
      rintro isJump
      simp [isJump] at constant
    have holds : Holds F L k fs := (gives.holds.noLists other noTrue noFalse).less (by omega)
    refine .bind (.at_state onConstants_holds holds) fun info fs holds => ?_
    refine ⟨?_, noTrue, noFalse, .inr ⟨rfl, temp_rkAsK ..⟩⟩
    simpa [ExpDesc.regs, ExpDesc.operands] using holds
  split
  · next kind => exact simple (by simp [kind])
  · next kind => exact simple (by simp [kind])
  · next kind => exact simple (by simp [kind])
  · next kind => exact simple (by simp [kind])
  · next kind =>
    refine .ite (fun _ => ?_) fun _ => register
    rintro _ rfl
    exact ⟨gives.holds.noLists (by simp [kind]) noTrue noFalse, noTrue, noFalse, .inr ⟨kind, temp_rkAsK ..⟩⟩
  · exact register

/-- The kinds of variables. -/
def ExpKind.IsVariable (k : ExpKind) : Prop := k ∈ [.vlocal, .vupval, .vglobal, .vindexed]

theorem storevar_holds {var : ExpDesc N} (isVariable : var.k.IsVariable) :
    Ensures (Gives F L k e) (storevar env var e) (fun _ => Holds F L k) Stopped := by
  unfold storevar
  split
  · have freed : Ensures (Gives F L k e) (freeexp e)
        (fun _ fs => Holds F (e.lists + L) (e.operands F.nactvar + k) fs ∧ Fits F e fs) Stopped :=
      .weaken (Keeps.fits freeexp_keeps freeexp_holds) (fun _ gives => ⟨gives.holds, gives.fits⟩) fun _ _ holds => holds
    exact freed.bind fun _ => .bind exp2reg_holds fun _ _ holds => holds.1
  · refine .bind exp2anyreg_holds fun e' => .assume fun inReg => .bind (codeABC_holds (by decide)) fun _ => ?_
    exact inReg.freed.weaken (fun _ holds => holds.1) fun _ _ holds => holds
  · refine .bind exp2anyreg_holds fun e' => .assume fun inReg => .bind (codeABx_holds (by decide)) fun _ => ?_
    exact inReg.freed.weaken (fun _ holds => holds.1) fun _ _ holds => holds
  · refine .bind exp2RK_holds fun r => .assume fun operand => .bind (codeABC_holds (by decide)) fun _ => ?_
    exact operand.freed.weaken (fun _ holds => holds.1) fun _ _ holds => holds
  · next isLocal isUpval isGlobal isIndexed =>
    simp only [ExpKind.IsVariable, List.mem_cons, List.not_mem_nil, or_false] at isVariable
    obtain kind | kind | kind | kind := isVariable
    · exact absurd kind isLocal
    · exact absurd kind isUpval
    · exact absurd kind isGlobal
    · exact absurd kind isIndexed

/-- `gafqK_self` puts the function and the object into two new registers. -/
theorem self_holds {key : ExpDesc N} (constant : key.k = .vk) (noTrue : key.t = noJump) (noFalse : key.f = noJump) :
    Ensures (Gives F L k e) (self env e key) (fun e' fs => Holds F L (2 + k) fs ∧ ∃ reg, InReg e' reg ∧ k ≤ reg ∧ reg ≤ 253) Stopped := by
  refine .bind exp2anyreg_holds fun e1 => .assume fun inReg => inReg.freed.bind fun _ => .get_bind fun fs holds => ?_
  have low := holds.room.held
  have reserved : Ensures (· = fs) (reserveregs 2 : CodeM N Unit) (fun _ fs' => Gives F L (2 + k) key fs' ∧ fs.freereg ≤ 253) Stopped := by
    refine .weaken (reserveregs_at (n := 2) holds) (fun _ same => same) ?_
    rintro _ fs' ⟨holds, moved⟩
    have high := holds.room.freereg
    have noRegs : key.regs F.nactvar = 0 := by simp [ExpDesc.regs, ExpDesc.operands, constant]
    refine ⟨⟨?_, .of_constant constant⟩, by omega⟩
    rw [noRegs, Nat.zero_add]
    exact holds.addLists (by simp [constant]) noTrue noFalse
  refine reserved.bind fun _ => .assume fun high => .bind exp2RK_holds fun r => .assume fun operand => ?_
  refine .bind (codeABC_holds (by decide)) fun _ => ?_
  refine (operand.freed.weaken (fun _ holds => holds.1) fun _ _ holds => holds).bind fun _ => ?_
  exact fun fs' holds => ⟨holds, fs.freereg, ⟨rfl, rfl, inReg.t, inReg.f⟩, low, high⟩

end

end Gafq.Code
