import Gafq.Base.Returned
import Gafq.Code.Operators
import Gafq.Verified.CodeFrames

/-! # What expressions hold

An expression descriptor holds the lists of its jumps and the registers of its value.  The functions of
`gcode.c` that work on descriptors take these over and give those of the new descriptor back.
-/

namespace Gafq.Code

open Gafq.Base

variable {N : Type} {F : CodeFrame} {L : Multiset Int} {k : Nat} {fs fs' : FuncState N} {e e' : ExpDesc N}

/-! ## Descriptors -/

/-- The lists of an expression; a `VJMP` is a jump of its own. -/
def ExpDesc.lists (e : ExpDesc N) : Multiset Int := {e.t} + ({e.f} + if e.k = .vjmp then {e.info} else 0)

/-- The registers that `gafqK_dischargevars` frees. -/
def ExpDesc.operands (e : ExpDesc N) (nactvar : Nat) : Nat :=
  if e.k = .vindexed then temp nactvar e.aux + temp nactvar e.info else 0

/-- The registers of an expression; the result of a call has one. -/
def ExpDesc.regs (e : ExpDesc N) (nactvar : Nat) : Nat :=
  match e.k with
  | .vnonreloc => temp nactvar e.info
  | .vcall => 1
  | _ => e.operands nactvar

/-- The kinds of expressions that have no jumps. -/
def ExpKind.IsSimple (k : ExpKind) : Prop := k ∈ [.vlocal, .vupval, .vglobal, .vindexed, .vcall, .vvararg]

/-- What the generator relies on when it works on an expression. -/
structure Fits (F : CodeFrame) (e : ExpDesc N) (fs : FuncState N) : Prop where
  nonvoid : e.k ≠ .vvoid
  simple : e.k.IsSimple → e.t = noJump ∧ e.f = noJump
  isLocal : e.k = .vlocal → e.info < F.nactvar
  isOpen : e.hasmultret → e.info.toNat < fs.pc ∧ Free (getcode fs e)
  isNot : F.last → e.k = .vrelocable → opcode? (getcode fs e) = some .not → 0 ≤ e.info ∧ e.info + 1 = fs.pc

/-- The expression is held, next to the lists `L` and `k` registers. -/
structure Gives (F : CodeFrame) (L : Multiset Int) (k : Nat) (e : ExpDesc N) (fs : FuncState N) : Prop where
  holds : Holds F (e.lists + L) (e.regs F.nactvar + k) fs
  fits : Fits F e fs

/-- The value of the expression is in a register. -/
structure InReg (e : ExpDesc N) (reg : Int) : Prop where
  k : e.k = .vnonreloc
  info : e.info = reg
  t : e.t = noJump
  f : e.f = noJump

section

variable {nactvar : Nat}

theorem regs_of_nonreloc (kind : e.k = .vnonreloc) : e.regs nactvar = temp nactvar e.info := by simp only [ExpDesc.regs, kind]

theorem regs_of_call (kind : e.k = .vcall) : e.regs nactvar = 1 := by simp only [ExpDesc.regs, kind]

theorem regs_of_operands (nonreloc : e.k ≠ .vnonreloc) (call : e.k ≠ .vcall) : e.regs nactvar = e.operands nactvar := by
  unfold ExpDesc.regs
  split
  · next kind => exact absurd kind nonreloc
  · next kind => exact absurd kind call
  · rfl

theorem operands_of_ne (other : e.k ≠ .vindexed) : e.operands nactvar = 0 := if_neg other

theorem operands_le_regs : e.operands nactvar ≤ e.regs nactvar := by
  unfold ExpDesc.regs
  split
  · next kind => simp [ExpDesc.operands, kind]
  · next kind => simp [ExpDesc.operands, kind]
  · exact Nat.le_refl _

theorem lists_of_ne (other : e.k ≠ .vjmp) : e.lists = {e.t} + {e.f} := by
  rw [ExpDesc.lists, if_neg other, add_zero]

theorem lists_of_jmp (kind : e.k = .vjmp) : e.lists = {e.t} + ({e.f} + {e.info}) := by rw [ExpDesc.lists, if_pos kind]

end

/-- An expression without jumps has no list that is worth holding. -/
theorem Holds.noLists (holds : Holds F (e.lists + L) k fs) (other : e.k ≠ .vjmp) (noTrue : e.t = noJump) (noFalse : e.f = noJump) :
    Holds F L k fs := by
  rw [lists_of_ne other, noTrue, noFalse, add_assoc] at holds
  exact holds.drop.drop

theorem Holds.addLists (holds : Holds F L k fs) (other : e.k ≠ .vjmp) (noTrue : e.t = noJump) (noFalse : e.f = noJump) :
    Holds F (e.lists + L) k fs := by
  rw [lists_of_ne other, noTrue, noFalse, add_assoc]
  exact holds.none.none

theorem ExpKind.IsSimple.ne_jmp {k : ExpKind} (simple : k.IsSimple) : k ≠ .vjmp := by
  rintro rfl
  simp [ExpKind.IsSimple] at simple

theorem InReg.holds {reg : Int} (inReg : InReg e reg) (holds : Holds F L k fs) : Holds F (e.lists + L) k fs :=
  holds.addLists (by simp [inReg.k]) inReg.t inReg.f

theorem InReg.fits {reg : Int} (inReg : InReg e reg) : Fits F e fs := by
  constructor <;> simp [inReg.k, ExpKind.IsSimple, ExpDesc.hasmultret]

/-! ## What keeps an expression -/

theorem Fits.steady (fits : Fits F e fs) (steady : Steady fs fs') : Fits F e fs' := by
  refine ⟨fits.nonvoid, fits.simple, fits.isLocal, fun isOpen => ?_, fun last kind isNot => ?_⟩
  · rw [steady.pc]
    exact ⟨(fits.isOpen isOpen).1, (steady.code _).free.2 (fits.isOpen isOpen).2⟩
  rw [steady.pc]
  refine fits.isNot last kind ?_
  obtain same | ⟨-, free⟩ := steady.code e.info.toNat
  · exact same.symm.trans isNot
  · exact absurd isNot free.2

theorem Keeps.fits {α : Type} {m : CodeM N α} {pre : FuncState N → Prop} {post : α → FuncState N → Prop} (keeps : Keeps m)
    (valid : Ensures pre m post Stopped) : Ensures (fun fs => pre fs ∧ Fits F e fs) m (fun a fs => post a fs ∧ Fits F e fs) Stopped :=
  keeps.carry (fun _ _ steady fits => fits.steady steady) valid

theorem freeexp_keeps : Keeps (freeexp e) := Keeps.ite freereg_keeps .pure

theorem modifyCode_keeps {f : Instruction → Instruction} (same : ∀ i, opcode? (f i) = opcode? i) : Keeps (modifyCode e f) := by
  refine .at_state fun fs _ fs' ran => ?_
  rw [modify_returned.1 ran]
  exact .setCode (.inl (same _))

theorem setreturns_keeps {nresults : Int} : Keeps (setreturns e nresults) := by
  refine .ite (modifyCode_keeps fun _ => opcode?_setArgC ..) (.ite ?_ .pure)
  refine .bind (modifyCode_keeps fun _ => opcode?_setArgB ..) fun _ => .get_bind fun _ => ?_
  exact .bind (modifyCode_keeps fun _ => opcode?_setArgA ..) fun _ => reserveregs_keeps

/-! ## Values -/

theorem freeexp_holds : Ensures (Holds F L (e.regs F.nactvar + k)) (freeexp e) (fun _ => Holds F L (e.operands F.nactvar + k)) Stopped := by
  refine .ite (fun nonreloc => ?_) fun other => ?_
  · rw [regs_of_nonreloc nonreloc, operands_of_ne (by simp [nonreloc]), Nat.zero_add]
    exact freereg_holds
  · exact fun fs holds => holds.less (Nat.add_le_add_right operands_le_regs k)

theorem free_of_same {i i' : Instruction} (same : opcode? i' = opcode? i) (free : Free i) : Free i' := (SameOp.free (.inl same)).2 free

/-- The instruction of an expression is changed where no jump is. -/
theorem modifyCode_holds {f : Instruction → Instruction} (stays : ∀ i, Free i → Free (f i)) :
    Ensures (fun fs => Holds F L k fs ∧ Free (getcode fs e)) (modifyCode e f) (fun _ fs => Holds F L k fs ∧ Free (getcode fs e)) Stopped := by
  refine .get_bind fun fs holds => .modify ?_
  rintro _ rfl
  obtain ⟨holds, free⟩ := holds
  have free' : Free (f (getcode _ e)) := stays _ free
  refine ⟨setCode_holds holds (.inr ⟨free, free'⟩), ?_⟩
  simpa only [getcode, Function.update_self] using free'

/-- The registers of an instruction are changed. -/
theorem relocate_holds {f : FuncState N → Int} :
    Ensures (Holds F L k) (do let fs ← get; modifyCode e fun i => setArgA i (f fs) : CodeM N Unit) (fun _ => Holds F L k) Stopped := by
  refine .get_bind fun fs holds => ?_
  rintro _ rfl
  exact setCode_holds holds (.setArgA _ _)

theorem setreturns_holds {nresults : Int} (multret : e.hasmultret) :
    Ensures (Gives F L k e) (setreturns e nresults) (fun _ => Holds F L (1 + k)) Stopped := by
  have simple : e.k.IsSimple := by
    obtain kind | kind := multret <;> simp [kind, ExpKind.IsSimple]
  have free : ∀ fs, Gives F L k e fs → Holds F L (e.regs F.nactvar + k) fs ∧ Free (getcode fs e) := fun fs gives =>
    ⟨gives.holds.noLists simple.ne_jmp (gives.fits.simple simple).1 (gives.fits.simple simple).2, (gives.fits.isOpen multret).2⟩
  refine .ite (fun call => ?_) fun other => .ite (fun vararg => ?_) fun neither => absurd multret (by simp [ExpDesc.hasmultret, other, neither])
  · have one : e.regs F.nactvar = 1 := regs_of_call call
    rw [← one]
    exact .weaken (modifyCode_holds fun _ => free_of_same (opcode?_setArgC ..)) free fun _ _ holds => holds.1
  · have none : e.regs F.nactvar = 0 := by simp only [ExpDesc.regs, ExpDesc.operands, vararg, reduceCtorEq, if_false]
    rw [none, Nat.zero_add] at free
    refine .bind (.weaken (modifyCode_holds fun _ => free_of_same (opcode?_setArgB ..)) free fun _ _ holds => holds.1) fun _ => ?_
    have relocated : Ensures (Holds F L k) (do let fs ← get; modifyCode e fun i => setArgA i fs.freereg) (fun _ => Holds F L k) Stopped :=
      relocate_holds
    rw [← bind_assoc]
    exact relocated.bind fun _ => reserveregs_holds

/-- The kinds of expressions that `gafqK_dischargevars` returns. -/
def ExpKind.IsDischarged (k : ExpKind) : Prop := k ∉ [.vvoid, .vlocal, .vupval, .vglobal, .vindexed, .vcall, .vvararg]

/-- What `gafqK_dischargevars` does to an expression. -/
structure Discharged (F : CodeFrame) (e e' : ExpDesc N) : Prop where
  t : e'.t = e.t
  f : e'.f = e.f
  kind : e'.k.IsDischarged
  jmp : e'.k = .vjmp → e.k = .vjmp
  regs : e'.regs F.nactvar + e.operands F.nactvar ≤ e.regs F.nactvar

theorem Holds.relist (holds : Holds F (e.lists + L) k fs) (t : e'.t = e.t) (f : e'.f = e.f) (other : e.k ≠ .vjmp)
    (other' : e'.k ≠ .vjmp) : Holds F (e'.lists + L) k fs := by
  rw [lists_of_ne other', t, f, ← lists_of_ne other]
  exact holds

theorem Fits.of_relocable {p : Nat} (info : e.info = p) (kind : e.k = .vrelocable)
    (isNot : opcode? (fs.code p) = some .not → p + 1 = fs.pc) : Fits F e fs := by
  refine ⟨by simp [kind], fun simple => ?_, fun isLocal => ?_, fun isOpen => ?_, fun _ _ isNot' => ?_⟩
  · simp [ExpKind.IsSimple, kind] at simple
  · simp [kind] at isLocal
  · simp [ExpDesc.hasmultret, kind] at isOpen
  · rw [getcode, info, Int.toNat_natCast] at isNot'
    have := isNot isNot'
    exact ⟨by omega, by omega⟩

/-- The last instruction gives the value of an expression. -/
theorem Coded.fits {i : Instruction} {p : Nat} (coded : Coded i p fs) (info : e.info = p) (kind : e.k = .vrelocable) : Fits F e fs :=
  .of_relocable info kind fun _ => coded.pc

/-- An expression that is neither a variable nor in the code. -/
theorem Fits.of_discharged (kind : e.k.IsDischarged) (elsewhere : e.k ≠ .vrelocable) : Fits F e fs := by
  simp only [ExpKind.IsDischarged, List.mem_cons, List.not_mem_nil, or_false, not_or] at kind
  constructor <;> simp [ExpKind.IsSimple, ExpDesc.hasmultret, kind, elsewhere]

theorem ExpKind.IsDischarged.operands (kind : e.k.IsDischarged) (nactvar : Nat) : e.operands nactvar = 0 := by
  refine operands_of_ne ?_
  rintro isIndexed
  simp [ExpKind.IsDischarged, isIndexed] at kind

/-- The result of a call or of `...` is one value. -/
theorem setoneret_discharges (multret : e.hasmultret) :
    Ensures (fun fs => Holds F (e.lists + L) k fs ∧ Fits F e fs) (setoneret e)
      (fun e' fs => Holds F (e'.lists + L) k fs ∧ Fits F e' fs ∧ Discharged F e e') Stopped := by
  have simple : e.k ≠ .vjmp := by
    obtain kind | kind := multret <;> simp [kind]
  refine .ite (fun call => ?_) fun other => .ite (fun vararg => ?_) fun neither => absurd multret (by simp [ExpDesc.hasmultret, other, neither])
  · refine .get_bind fun fs holds => ?_
    rintro _ rfl
    refine ⟨holds.1.relist rfl rfl simple (by simp), ?_, rfl, rfl, by simp [ExpKind.IsDischarged], by simp, ?_⟩
    · exact .of_discharged (by simp [ExpKind.IsDischarged]) (by simp)
    · rw [regs_of_call call, regs_of_nonreloc rfl, operands_of_ne (by simp [call])]
      exact temp_le ..
  · have before : ∀ fs, Holds F (e.lists + L) k fs ∧ Fits F e fs → Holds F (e.lists + L) k fs ∧ Free (getcode fs e) :=
      fun fs holds => ⟨holds.1, (holds.2.isOpen multret).2⟩
    refine .bind (.weaken (modifyCode_holds fun _ => free_of_same (opcode?_setArgB ..)) before fun _ _ holds => holds) fun _ => ?_
    rintro fs ⟨holds, free⟩
    refine ⟨holds.relist rfl rfl simple (by simp), ⟨by simp, fun kind => ?_, fun isLocal => ?_, fun isOpen => ?_,
      fun _ _ isNot => absurd isNot free.2⟩, rfl, rfl, by simp [ExpKind.IsDischarged], by simp, ?_⟩
    · simp [ExpKind.IsSimple] at kind
    · cases isLocal
    · simp [ExpDesc.hasmultret] at isOpen
    · simp [ExpDesc.regs, ExpDesc.operands, vararg]

theorem dischargevars_discharges :
    Ensures (fun fs => Holds F (e.lists + L) (e.operands F.nactvar + k) fs ∧ Fits F e fs) (dischargevars e)
      (fun e' fs => Holds F (e'.lists + L) k fs ∧ Fits F e' fs ∧ Discharged F e e') Stopped := by
  have coded {m : CodeM N Nat} {i : Instruction} (coded : Ensures (Holds F (e.lists + L) k) m (fun p fs => Holds F (e.lists + L) k fs ∧ Coded i p fs) Stopped)
      (simple : e.k.IsSimple) :
      Ensures (Holds F (e.lists + L) k) (m >>= fun info => pure { e with k := .vrelocable, info } : CodeM N (ExpDesc N))
        (fun e' fs => Holds F (e'.lists + L) k fs ∧ Fits F e' fs ∧ Discharged F e e') Stopped := by
    refine coded.bind fun info => ?_
    rintro fs ⟨holds, coded⟩
    refine ⟨holds.relist rfl rfl simple.ne_jmp (by simp), coded.fits rfl rfl, rfl, rfl, by simp [ExpKind.IsDischarged], by simp, ?_⟩
    simpa [ExpDesc.regs, ExpDesc.operands] using operands_le_regs
  unfold dischargevars
  split
  · next kind =>
    rintro fs ⟨holds, fits⟩
    refine ⟨(holds.less (by omega)).relist rfl rfl (by simp [kind]) (by simp), .of_discharged ?_ ?_, rfl, rfl, ?_, by simp, ?_⟩
    · simp [ExpKind.IsDischarged]
    · simp
    · simp [ExpKind.IsDischarged]
    · have active := fits.isLocal kind
      have none : temp F.nactvar e.info = 0 := if_neg (by omega)
      simp [ExpDesc.regs, ExpDesc.operands, kind, none]
  · next kind =>
    refine (coded (codeABC_holds (by decide)) (by simp [ExpKind.IsSimple, kind])).weaken ?_ fun _ _ holds => holds
    exact fun fs holds => holds.1.less (by omega)
  · next kind =>
    refine (coded (codeABx_holds (by decide)) (by simp [ExpKind.IsSimple, kind])).weaken ?_ fun _ _ holds => holds
    exact fun fs holds => holds.1.less (by omega)
  · next kind =>
    have operands : e.operands F.nactvar + k = temp F.nactvar e.aux + (temp F.nactvar e.info + k) := by
      rw [ExpDesc.operands, if_pos kind, Nat.add_assoc]
    rw [operands]
    refine .bind (.weaken freereg_holds (fun _ holds => holds.1) fun _ _ holds => holds) fun _ => ?_
    exact .bind freereg_holds fun _ => coded (codeABC_holds (by decide)) (by simp [ExpKind.IsSimple, kind])
  · next kind =>
    refine .weaken (setoneret_discharges (.inr kind)) ?_ fun _ _ holds => holds
    exact fun fs holds => ⟨holds.1.less (by omega), holds.2⟩
  · next kind =>
    refine .weaken (setoneret_discharges (.inl kind)) ?_ fun _ _ holds => holds
    exact fun fs holds => ⟨holds.1.less (by omega), holds.2⟩
  · next isLocal isUpval isGlobal isIndexed isVararg isCall =>
    rintro fs ⟨holds, fits⟩
    refine ⟨holds.less (by omega), fits, rfl, rfl, ?_, id, ?_⟩
    · simpa [ExpKind.IsDischarged] using ⟨fits.nonvoid, isLocal, isUpval, isGlobal, isIndexed, isCall, isVararg⟩
    · rw [operands_of_ne isIndexed]
      exact Nat.le_refl _

/-- The same for an expression with its registers. -/
theorem dischargevars_gives :
    Ensures (Gives F L k e) (dischargevars e) (fun e' fs => Gives F L k e' fs ∧ Discharged F e e') Stopped := by
  have enough : e.operands F.nactvar + (e.regs F.nactvar - e.operands F.nactvar + k) = e.regs F.nactvar + k := by
    have := @operands_le_regs N e F.nactvar
    omega
  refine .weaken dischargevars_discharges (fun fs gives => ⟨gives.holds.less (Nat.le_of_eq enough), gives.fits⟩) ?_
  rintro e' fs ⟨holds, fits, discharged⟩
  have := discharged.regs
  exact ⟨⟨holds.less (by omega), fits⟩, discharged⟩

end Gafq.Code
