import Gafq.Verified.RegisterFrames

/-! # Operators

The operands of an operator wait for each other: the first one of `and` and `or` holds one list, the
others a register or a constant.
-/

namespace Gafq.Code

open Gafq.Base

variable {N : Type} {F : CodeFrame} {L : Multiset Int} {k : Nat} {fs fs' : FuncState N} {e e' : ExpDesc N}

/-! ## Jumps and lists -/

/-- `invertjump` changes the control of a jump. -/
theorem invertjump_holds : Ensures (Holds F L k) (invertjump e : CodeM N Unit) (fun _ => Holds F L k) Stopped := by
  refine .get_bind fun fs holds => ?_
  rintro _ rfl
  exact setCode_holds holds (.setArgA _ _)

/-- `jumponcond` removes a `NOT` that is the last instruction. -/
theorem removenot_holds {fs : FuncState N} (holds : Holds F L k fs) (nonempty : 0 < fs.pc) (isNot : opcode? (fs.code (fs.pc - 1)) = some .not) :
    Holds F L k { fs with pc := fs.pc - 1 } := by
  obtain ⟨⟨⟨c, reachable, rfl, live, loops, blocks, plain⟩, room⟩, jmpHere⟩ := holds
  refine ⟨⟨⟨_, reachable.step (.removenot nonempty isNot), rfl, live, loops, blocks, fun p member => ?_⟩, room.same ⟨rfl, rfl, rfl⟩⟩, jmpHere⟩
  obtain ⟨below, free⟩ := plain p member
  refine ⟨?_, free⟩
  have other : p ≠ c.fs.pc - 1 := by
    rintro rfl
    exact free.2 isNot
  show p < c.fs.pc - 1
  omega

/-- A jump is put at the end of one list, and the other one leads to here. -/
theorem insert_holds {α : Type} {l l' pc : Int} {rest : Int → CodeM N α} {post : α → FuncState N → Prop}
    (valid : ∀ l, Ensures (Holds F ({l} + L) k) (rest l) post Stopped) :
    Ensures (Holds F ({pc} + ({l} + ({l'} + L))) k) (concat l pc >>= fun l => patchtohere l' >>= fun _ => rest l) post Stopped := by
  rw [add_left_comm]
  refine .bind concat_holds fun l => ?_
  rw [add_left_comm]
  exact .bind patchtohere_holds fun _ => valid l

/-- An expression that needs no jump. -/
theorem noJump_holds (other : e.k ≠ .vjmp) :
    Ensures (Gives F L k e) (pure noJump : CodeM N Int) (fun pc => Holds F ({pc} + ({e.t} + ({e.f} + L))) k) Stopped := by
  intro fs gives
  have holds : Holds F (e.lists + L) k fs := gives.holds.less (by omega)
  rw [lists_of_ne other, add_assoc] at holds
  exact holds.none

/-- The jump of a comparison. -/
theorem Gives.ownJump (gives : Gives F L k e fs) (kind : e.k = .vjmp) : Holds F ({e.info} + ({e.t} + ({e.f} + L))) k fs := by
  have holds : Holds F (e.lists + L) k fs := gives.holds.less (by omega)
  refine holds.lists ?_
  rw [lists_of_jmp kind]
  abel

theorem Fits.of_indexed (kind : e.k = .vindexed) (noTrue : e.t = noJump) (noFalse : e.f = noJump) : Fits F e fs := by
  constructor <;> simp [ExpDesc.hasmultret, kind, noTrue, noFalse]

/-- The lists of an expression are interchanged. -/
theorem Fits.swap (fits : Fits F e fs) : Fits F { e with f := e.t, t := e.f } fs where
  nonvoid := fits.nonvoid
  simple kind := (fits.simple kind).symm
  isLocal := fits.isLocal
  isOpen := fits.isOpen
  isNot := fits.isNot

/-- Two operands are given up, the later one first. -/
theorem freeBoth_holds {e1 e2 : ExpDesc N} {o1 o2 : Int} (first : e1.k ≠ .vindexed) (second : e2.k ≠ .vindexed)
    {rest : CodeM N (ExpDesc N)} {post : ExpDesc N → FuncState N → Prop} (valid : Ensures (Holds F L k) rest post Stopped) :
    Ensures (Holds F L (e1.regs F.nactvar + (e2.regs F.nactvar + k)))
      (if o1 > o2 then freeexp e1 >>= fun _ => freeexp e2 >>= fun _ => rest else freeexp e2 >>= fun _ => freeexp e1 >>= fun _ => rest)
      post Stopped := by
  refine .ite (fun _ => .bind (freed_holds first) fun _ => .bind (freed_holds second) fun _ => valid) fun _ => ?_
  rw [Nat.add_left_comm]
  exact .bind (freed_holds second) fun _ => .bind (freed_holds first) fun _ => valid

/-- An expression that waits for another one: a register or a constant. -/
structure Settled (e : ExpDesc N) : Prop where
  t : e.t = noJump
  f : e.f = noJump
  kind : e.k ∈ [.vnonreloc, .vk, .vknum]

theorem Settled.ne (settled : Settled e) : e.k ≠ .vjmp ∧ e.k ≠ .vindexed ∧ e.k ≠ .vrelocable ∧ e.k.IsDischarged := by
  have kind := settled.kind
  simp only [List.mem_cons, List.not_mem_nil, or_false] at kind
  obtain kind | kind | kind := kind <;> simp [kind, ExpKind.IsDischarged]

theorem Settled.gives (settled : Settled e) (holds : Holds F L (e.regs F.nactvar + k) fs) : Gives F L k e fs := by
  obtain ⟨other, -, elsewhere, discharged⟩ := settled.ne
  exact ⟨holds.addLists other settled.t settled.f, .of_discharged discharged elsewhere⟩

theorem IsOperand.settled {o : Int} (operand : IsOperand F.nactvar e o) : Settled e := by
  refine ⟨operand.t, operand.f, ?_⟩
  obtain ⟨kind, -⟩ | ⟨kind, -⟩ := operand.kind <;> simp [kind]

/-- The instruction of an open expression is kept while another one is coded. -/
def CodeFrame.keeping (F : CodeFrame) (e : ExpDesc N) : CodeFrame :=
  { F with plain := if e.hasmultret then e.info.toNat :: F.plain else F.plain, last := False }

theorem Gives.keeping (gives : Gives F L k e fs) : Holds (F.keeping e) (e.lists + L) (e.regs F.nactvar + k) fs := by
  obtain ⟨⟨⟨c, reachable, rfl, live, loops, blocks, plain⟩, room⟩, jmpHere⟩ := gives.holds
  refine ⟨⟨⟨c, reachable, rfl, live, loops, blocks, fun p member => ?_⟩, room⟩, jmpHere⟩
  by_cases isOpen : e.hasmultret
  · rw [CodeFrame.keeping, if_pos isOpen] at member
    obtain rfl | member := List.mem_cons.1 member
    · exact gives.fits.isOpen isOpen
    · exact plain p member
  · rw [CodeFrame.keeping, if_neg isOpen] at member
    exact plain p member

/-- The expression is still as it was. -/
theorem Gives.kept (fits : Fits F e fs) (holds : Holds (F.keeping e) (e.lists + L) (e.regs F.nactvar + k) fs') :
    Gives (F.keeping e) L k e fs' := by
  obtain ⟨c, reachable, rfl, live, loops, blocks, plain⟩ := holds.listed
  refine ⟨holds, fits.nonvoid, fits.simple, fits.isLocal, fun isOpen => plain _ ?_, False.elim⟩
  simp [CodeFrame.keeping, isOpen]

theorem Holds.release (holds : Holds (F.keeping e) L k fs) : Holds F L k fs := by
  obtain ⟨⟨⟨c, reachable, rfl, live, loops, blocks, plain⟩, room⟩, jmpHere⟩ := holds
  refine ⟨⟨⟨c, reachable, rfl, live, loops, blocks, fun p member => plain p ?_⟩, room⟩, jmpHere⟩
  simp only [CodeFrame.keeping]
  split
  · exact List.mem_cons_of_mem _ member
  · exact member

/-- The instruction `p` is kept. -/
def CodeFrame.pin (F : CodeFrame) (p : Nat) : CodeFrame := { F with plain := p :: F.plain }

theorem Holds.pin {p : Nat} (holds : Holds F L k fs) (below : p < fs.pc) (free : Free (fs.code p)) : Holds (F.pin p) L k fs := by
  obtain ⟨⟨⟨c, reachable, rfl, live, loops, blocks, plain⟩, room⟩, jmpHere⟩ := holds
  refine ⟨⟨⟨c, reachable, rfl, live, loops, blocks, fun q member => ?_⟩, room⟩, jmpHere⟩
  obtain rfl | member := List.mem_cons.1 member
  · exact ⟨below, free⟩
  · exact plain q member

theorem Holds.pinned {p : Nat} (holds : Holds (F.pin p) L k fs) : p < fs.pc ∧ Free (fs.code p) := by
  obtain ⟨c, -, rfl, -, -, -, plain⟩ := holds.listed
  exact plain p (List.mem_cons_self ..)

theorem Holds.unpin {p : Nat} (holds : Holds (F.pin p) L k fs) : Holds F L k fs := by
  obtain ⟨⟨⟨c, reachable, rfl, live, loops, blocks, plain⟩, room⟩, jmpHere⟩ := holds
  exact ⟨⟨⟨c, reachable, rfl, live, loops, blocks, fun q member => plain q (List.mem_cons_of_mem _ member)⟩, room⟩, jmpHere⟩

theorem Settled.addLists (settled : Settled e) (holds : Holds F L k fs) : Holds F (e.lists + L) k fs :=
  holds.addLists settled.ne.1 settled.t settled.f

theorem Holds.relocated {info : Int} (holds : Holds F (e.lists + L) k fs) (other : e.k ≠ .vjmp) :
    Holds F (({ e with info, k := .vrelocable } : ExpDesc N).lists + L) (({ e with info, k := .vrelocable } : ExpDesc N).regs F.nactvar + k) fs := by
  have relisted : Holds F (({ e with info, k := .vrelocable } : ExpDesc N).lists + L) k fs := holds.relist rfl rfl other (by simp)
  exact relisted.less (by simp [ExpDesc.regs, ExpDesc.operands])

/-- The value of the expression is that of the last instruction. -/
theorem Holds.coded {i : Instruction} {p : Nat} (holds : Holds F (e.lists + L) k fs) (other : e.k ≠ .vjmp) (coded : Coded i p fs) :
    Gives F L k { e with info := p, k := .vrelocable } fs := by
  exact ⟨holds.relocated other, coded.fits rfl rfl⟩

/-- The expression is a jump. -/
theorem Settled.jump {j : Int} (settled : Settled e) (holds : Holds F ({j} + L) k fs) :
    Gives F L k { e with info := j, k := .vjmp } fs := by
  refine ⟨?_, .of_discharged (by simp [ExpKind.IsDischarged]) (by simp)⟩
  rw [lists_of_jmp rfl, settled.t, settled.f, add_assoc, add_assoc]
  exact holds.none.none.less (by simp [ExpDesc.regs, ExpDesc.operands])

/-- An expression whose value has been discharged gets other lists. -/
theorem Fits.relist (fits : Fits F e fs) (kind : e.k.IsDischarged) (t f : Int) : Fits F { e with t, f } fs := by
  simp only [ExpKind.IsDischarged, List.mem_cons, List.not_mem_nil, or_false, not_or] at kind
  constructor
  case nonvoid => exact fits.nonvoid
  case simple => simp [ExpKind.IsSimple, kind]
  case isLocal => simp [kind]
  case isOpen => simp [ExpDesc.hasmultret, kind]
  case isNot => exact fits.isNot

/-- The list of the first operand of `and` and `or`. -/
def waitingLists (op : Parser.BinOpr) (e : ExpDesc N) : Multiset Int :=
  match op with
  | .and => {e.f}
  | .or => {e.t}
  | _ => 0

/-- The registers of the first operand of another operator. -/
def waitingRegs (op : Parser.BinOpr) (nactvar : Nat) (e : ExpDesc N) : Nat :=
  match op with
  | .and | .or => 0
  | _ => e.regs nactvar

/-- The first operand of an operator waits for the second one. -/
def Waits (op : Parser.BinOpr) (e : ExpDesc N) : Prop := op = .and ∨ op = .or ∨ Settled e

theorem Waits.settled {op : Parser.BinOpr} (waits : Waits op e) (other : op ≠ .and ∧ op ≠ .or) : Settled e :=
  waits.resolve_left other.1 |>.resolve_left other.2

theorem waiting_of_other {op : Parser.BinOpr} (other : op ≠ .and ∧ op ≠ .or) (nactvar : Nat) (e : ExpDesc N) :
    waitingLists op e = 0 ∧ waitingRegs op nactvar e = e.regs nactvar := by
  cases op
  case and => exact absurd rfl other.1
  case or => exact absurd rfl other.2
  all_goals exact ⟨rfl, rfl⟩

section

variable [GafqNumber N] {env : Env N}

/-- The value that an instruction will put anywhere. -/
theorem Holds.relocable {p : Nat} (holds : Holds F L k fs) (free : Free (fs.code p)) : Gives F L k (initExp .vrelocable p) fs := by
  refine ⟨?_, .of_relocable rfl rfl fun isNot => absurd isNot free.2⟩
  simpa [ExpDesc.regs, ExpDesc.operands, initExp] using holds.addLists (e := initExp .vrelocable p) (by simp [initExp]) rfl rfl

/-! ## Jumps -/

theorem jumponcond_holds {cond : Bool} (last : F.last) (other : e.k ≠ .vjmp) :
    Ensures (Gives F L k e) (jumponcond env e cond) (fun j => Holds F ({j} + ({e.t} + ({e.f} + L))) k) Stopped := by
  have lists : e.lists + L = {e.t} + ({e.f} + L) := by rw [lists_of_ne other, add_assoc]
  refine .get_bind fun fs gives => .ite (fun isNot => ?_) fun _ => ?_
  · have atEnd := gives.fits.isNot last isNot.1 isNot.2
    have place : e.info.toNat = fs.pc - 1 := by omega
    have holds : Holds F ({e.t} + ({e.f} + L)) k fs := lists ▸ gives.holds.less (by omega)
    have removed : Ensures (· = fs) (modify fun fs => { fs with pc := fs.pc - 1 } : CodeM N Unit)
        (fun _ => Holds F ({e.t} + ({e.f} + L)) k) Stopped := by
      refine .modify ?_
      rintro _ rfl
      refine removenot_holds holds (by omega) ?_
      rw [← place]
      exact isNot.2
    exact removed.bind fun _ => condjump_holds (by decide)
  · have before : Holds F (e.lists + L) (e.regs F.nactvar + k) fs ∧ Fits F e fs := ⟨gives.holds, gives.fits⟩
    refine .bind (.at_state discharge2anyreg_holds before) fun e1 => .assume ?_
    rintro ⟨reg, putIn⟩
    have kind := putIn.plain other
    have freed : Ensures (Holds F (e1.lists + L) (e1.regs F.nactvar + k)) (freeexp e1) (fun _ => Holds F ({e.t} + ({e.f} + L)) k) Stopped := by
      refine .weaken freeexp_holds (fun _ holds => holds) fun _ fs holds => ?_
      rwa [operands_of_ne kind.2, Nat.zero_add, lists_of_ne kind.1, putIn.t, putIn.f, add_assoc] at holds
    exact freed.bind fun _ => condjump_holds (by decide)

theorem goiftrue_holds (last : F.last) : Ensures (Gives F L k e) (goiftrue env e) (fun e' fs => Holds F ({e'.f} + L) k fs) Stopped := by
  refine .bind dischargevars_gives fun e1 => .assume fun _ => ?_
  have finish (pc : Int) : Ensures (Holds F ({pc} + ({e1.t} + ({e1.f} + L))) k)
      (concat e1.f pc >>= fun f => patchtohere e1.t >>= fun _ => pure { e1 with f, t := noJump } : CodeM N (ExpDesc N))
      (fun e' fs => Holds F ({e'.f} + L) k fs) Stopped := by
    rw [add_left_comm ({e1.t} : Multiset Int)]
    exact insert_holds fun _ _ holds => holds
  split
  · next kind => exact .bind (noJump_holds (by simp [kind])) finish
  · next kind => exact .bind (noJump_holds (by simp [kind])) finish
  · next kind => exact .bind (noJump_holds (by simp [kind])) finish
  · next kind =>
    have inverted : Ensures (Gives F L k e1) (do invertjump e1; pure e1.info : CodeM N Int)
        (fun pc => Holds F ({pc} + ({e1.t} + ({e1.f} + L))) k) Stopped := by
      refine .bind (.weaken invertjump_holds (fun _ gives => gives.ownJump kind) fun _ _ holds => holds) fun _ _ holds => holds
    exact inverted.bind finish
  · next isK isKnum isTrue isJump => exact .bind (jumponcond_holds last isJump) finish

theorem goiffalse_holds (last : F.last) : Ensures (Gives F L k e) (goiffalse env e) (fun e' fs => Holds F ({e'.t} + L) k fs) Stopped := by
  refine .bind dischargevars_gives fun e1 => .assume fun _ => ?_
  have finish (pc : Int) : Ensures (Holds F ({pc} + ({e1.t} + ({e1.f} + L))) k)
      (concat e1.t pc >>= fun t => patchtohere e1.f >>= fun _ => pure { e1 with t, f := noJump } : CodeM N (ExpDesc N))
      (fun e' fs => Holds F ({e'.t} + L) k fs) Stopped :=
    insert_holds fun _ _ holds => holds
  split
  · next kind => exact .bind (noJump_holds (by simp [kind])) finish
  · next kind => exact .bind (noJump_holds (by simp [kind])) finish
  · next kind =>
    have own : Ensures (Gives F L k e1) (pure e1.info : CodeM N Int) (fun pc => Holds F ({pc} + ({e1.t} + ({e1.f} + L))) k) Stopped :=
      fun _ gives => gives.ownJump kind
    exact own.bind finish
  · next isNil isFalse isJump => exact .bind (jumponcond_holds last isJump) finish

/-- The cases of `codenot`. -/
theorem negate_holds : Ensures (Gives F L k e) (negate env e) (fun e' => Gives F L k e') Stopped := by
  have constant {kind' : ExpKind} (other : e.k ≠ .vjmp) (isConstant : kind' = .vtrue ∨ kind' = .vfalse) :
      Ensures (Gives F L k e) (pure { e with k := kind' } : CodeM N (ExpDesc N)) (fun e' => Gives F L k e') Stopped := by
    intro fs gives
    have noRegs : ({ e with k := kind' } : ExpDesc N).regs F.nactvar = 0 := by
      obtain rfl | rfl := isConstant <;> rfl
    refine ⟨(gives.holds.less (by omega)).relist rfl rfl other ?_, ?_⟩
    · obtain rfl | rfl := isConstant <;> simp
    · obtain rfl | rfl := isConstant <;> exact .of_discharged (by simp [ExpKind.IsDischarged]) (by simp)
  have coded (other : e.k ≠ .vjmp) : Ensures (Gives F L k e)
      (do let e ← discharge2anyreg env e
          freeexp e
          let info ← codeABC .not 0 e.info 0
          pure { e with info, k := .vrelocable })
      (fun e' => Gives F L k e') Stopped := by
    refine .bind (.weaken discharge2anyreg_holds (fun _ gives => ⟨gives.holds, gives.fits⟩) fun _ _ holds => holds) fun e1 => .assume ?_
    rintro ⟨reg, putIn⟩
    have kind := putIn.plain other
    refine .bind freeexp_holds fun _ => .bind (codeABC_holds (by decide)) fun info => ?_
    rintro fs ⟨holds, coded⟩
    rw [operands_of_ne kind.2] at holds
    exact ⟨holds.relist rfl rfl kind.1 (by simp), coded.fits rfl rfl⟩
  unfold negate
  split
  · next kind => exact constant (by simp [kind]) (.inl rfl)
  · next kind => exact constant (by simp [kind]) (.inl rfl)
  · next kind => exact constant (by simp [kind]) (.inr rfl)
  · next kind => exact constant (by simp [kind]) (.inr rfl)
  · next kind => exact constant (by simp [kind]) (.inr rfl)
  · next kind =>
    have fits {fs : FuncState N} : Fits F e fs := .of_discharged (by simp [ExpKind.IsDischarged, kind]) (by simp [kind])
    refine .bind (.weaken invertjump_holds (fun _ gives => gives.holds) fun _ _ holds => holds) fun _ => ?_
    exact fun fs holds => ⟨holds, fits⟩
  · next kind => exact coded (by simp [kind])
  · next kind => exact coded (by simp [kind])
  · exact fun _ gives => gives

/-- `codenot` interchanges the lists of an expression. -/
theorem codenot_holds : Ensures (Gives F L k e) (codenot env e) (fun e' => Gives F L k e') Stopped := by
  refine .bind (.weaken dischargevars_gives (fun _ gives => gives) fun _ _ gives => gives.1) fun e1 => .bind negate_holds fun e2 => ?_
  have swapped : ∀ fs, Gives F L k e2 fs → Gives F L k { e2 with f := e2.t, t := e2.f } fs := by
    intro fs gives
    refine ⟨gives.holds.lists ?_, gives.fits.swap⟩
    simp only [ExpDesc.lists]
    abel
  have removed {e : ExpDesc N} {l : Int} (lists : ∃ rest, e.lists + L = {l} + rest) :
      Ensures (Gives F L k e) (removevalues l) (fun _ => Gives F L k e) Stopped := by
    obtain ⟨rest, lists⟩ := lists
    exact .weaken (Keeps.fits removevalues_keeps removevalues_holds) (fun _ gives => ⟨gives.holds.lists lists, gives.fits⟩)
      fun _ _ holds => ⟨holds.1.lists lists.symm, holds.2⟩
  have ofTrue (e : ExpDesc N) : ∃ rest, e.lists + L = {e.t} + rest := ⟨_, add_assoc ..⟩
  have ofFalse (e : ExpDesc N) : ∃ rest, e.lists + L = {e.f} + rest := ⟨_, by rw [ExpDesc.lists, add_left_comm, add_assoc]⟩
  exact ((removed (ofFalse _)).weaken swapped fun _ _ gives => gives).bind fun _ => (removed (ofTrue _)).bind fun _ _ gives => gives

/-! ## Operations -/

/-- An access to a table whose operands are in registers or constant. -/
theorem indexed_holds {t : ExpDesc N} (inReg : InReg t t.info) :
    Ensures (Gives F L (t.regs F.nactvar + k) e) (indexed env t e) (fun e' fs => Gives F L k e' fs ∧ e'.k.IsVariable) Stopped := by
  refine .bind exp2RK_holds fun r => ?_
  rintro fs ⟨holds, operand⟩
  have regs : r.1.regs F.nactvar + (t.regs F.nactvar + k) = ({ t with aux := r.2, k := .vindexed } : ExpDesc N).regs F.nactvar + k := by
    rw [← operand.temp_eq, regs_of_nonreloc inReg.k]
    simp only [ExpDesc.regs, ExpDesc.operands, if_true]
    omega
  rw [regs] at holds
  exact ⟨⟨holds.addLists (by simp) inReg.t inReg.f, .of_indexed rfl inReg.t inReg.f⟩, by simp [ExpKind.IsVariable]⟩

theorem foldExp_some {op : OpCode} {e1 e2 : ExpDesc N} (folded : foldExp env op e1 e2 = some e) :
    e2.isnumeral ∧ e.isnumeral := by
  unfold foldExp at folded
  split at folded
  · next numerals =>
    obtain ⟨r, -, rfl⟩ := Option.map_eq_some_iff.1 folded
    exact ⟨numerals.2, numerals.1⟩
  · cases folded

/-- An operation on two operands; the second one of a unary operation is not used. -/
theorem codearith_holds {op : OpCode} {e1 e2 : ExpDesc N} (plain : op ∉ [OpCode.jmp, .forprep, .forloop]) (settled : Settled e1)
    (unary : op = .unm ∨ op = .len → Settled e2) :
    Ensures (Gives F L (e1.regs F.nactvar + k) e2) (codearith env op e1 e2) (fun e' => Gives F L k e') Stopped := by
  unfold codearith
  split
  · next e1' folded =>
    intro fs gives
    obtain ⟨⟨kind, noTrue, noFalse⟩, kind', noTrue', noFalse'⟩ := foldExp_some folded
    have settled' : Settled e1' := ⟨noTrue', noFalse', by simp [kind']⟩
    refine settled'.gives ((gives.holds.noLists (by simp [kind]) noTrue noFalse).less ?_)
    simp [ExpDesc.regs, ExpDesc.operands, kind']
    omega
  · have operand : Ensures (Gives F L (e1.regs F.nactvar + k) e2)
        (if op ≠ .unm ∧ op ≠ .len then exp2RK env e2 else pure (e2, 0))
        (fun r fs => Gives F L (r.1.regs F.nactvar + k) e1 fs ∧ r.1.k ≠ .vindexed) Stopped := by
      refine .ite (fun _ => ?_) fun isUnary => ?_
      · refine .weaken exp2RK_holds (fun _ gives => gives) ?_
        rintro r fs ⟨holds, operand⟩
        exact ⟨settled.gives (holds.less (by omega)), operand.ne_indexed⟩
      · intro fs gives
        have settled2 := unary (by simpa only [not_and_or, not_not] using isUnary)
        have holds := gives.holds.noLists settled2.ne.1 settled2.t settled2.f
        exact ⟨settled.gives (holds.less (Nat.le_of_eq (Nat.add_left_comm ..))), settled2.ne.2.1⟩
    refine .ite_bind operand fun r => .assume fun other => .bind exp2RK_holds fun r1 => .assume fun operand => ?_
    refine freeBoth_holds operand.ne_indexed other (.bind (codeABC_holds plain) fun info => ?_)
    rintro fs ⟨holds, coded⟩
    exact (operand.settled.addLists holds).coded operand.ne_jmp coded

/-- A comparison is a jump of its own. -/
theorem codecomp_holds {op : OpCode} {cond : Bool} {e1 e2 : ExpDesc N} (plain : op ∉ [OpCode.jmp, .forprep, .forloop]) (settled : Settled e1) :
    Ensures (Gives F L (e1.regs F.nactvar + k) e2) (codecomp env op cond e1 e2) (fun e' => Gives F L k e') Stopped := by
  intro fs gives
  have fits := gives.fits
  have kept : Gives (F.keeping e2) (e2.lists + L) (e2.regs F.nactvar + k) e1 fs := by
    refine settled.gives (gives.keeping.less ?_)
    exact Nat.le_of_eq (Nat.add_left_comm ..)
  refine Ensures.at_state ?_ kept fs rfl
  have first : Ensures (Gives (F.keeping e2) (e2.lists + L) (e2.regs F.nactvar + k) e1) (exp2RK env e1)
      (fun r fs => Gives (F.keeping e2) L (r.1.regs F.nactvar + k) e2 fs ∧ IsOperand F.nactvar r.1 r.2) Stopped := by
    refine .weaken exp2RK_holds (fun _ gives => gives) ?_
    rintro r fs' ⟨holds, operand⟩
    refine ⟨.kept fits (holds.less ?_), operand⟩
    exact Nat.le_of_eq (Nat.add_left_comm ..)
  have jumped {a b c : Int} {e1 : ExpDesc N} (settled : Settled e1) : Ensures (Holds (F.keeping e2) L k)
      (condjump op a b c >>= fun info => pure { e1 with info, k := .vjmp }) (fun e' => Gives F L k e') Stopped :=
    .bind (condjump_holds plain) fun _ _ holds => settled.jump holds.release
  refine first.bind fun r1 => .assume fun operand1 => .bind exp2RK_holds fun r2 => .assume fun operand2 => ?_
  refine operand2.freed.bind fun _ => .bind (freed_holds operand1.ne_indexed) fun _ => ?_
  exact .ite (fun _ => jumped operand1.settled) fun _ => jumped operand1.settled

/-! ## Operators -/

/-- `gafqK_prefix` -/
theorem prefixExp_holds {op : Parser.UnOpr} : Ensures (Gives F L k e) (prefixExp env op e) (fun e' => Gives F L k e') Stopped := by
  have unused : Settled (initExp .vknum 0 : ExpDesc N) := ⟨rfl, rfl, by simp [initExp]⟩
  have operand {e : ExpDesc N} {fs : FuncState N} (settled : Settled e) (holds : Holds F L (e.regs F.nactvar + k) fs) :
      Gives F L (e.regs F.nactvar + k) (initExp .vknum 0) fs :=
    unused.gives (holds.less (by simp [ExpDesc.regs, ExpDesc.operands, initExp]))
  have inReg : Ensures (Gives F L k e) (exp2anyreg env e)
      (fun e fs => Gives F L (e.regs F.nactvar + k) (initExp .vknum 0) fs ∧ Settled e) Stopped := by
    refine .weaken exp2anyreg_holds (fun _ gives => gives) ?_
    rintro e' fs ⟨holds, inReg⟩
    have settled : Settled e' := ⟨inReg.t, inReg.f, by simp [inReg.k]⟩
    exact ⟨operand settled holds, settled⟩
  cases op with
  | minus =>
    have numeral : Ensures (Gives F L k e) (if e.isnumeral then pure e else exp2anyreg env e)
        (fun e fs => Gives F L (e.regs F.nactvar + k) (initExp .vknum 0) fs ∧ Settled e) Stopped := by
      refine .ite (fun isNumeral => fun fs gives => ?_) fun _ => inReg
      have settled : Settled e := ⟨isNumeral.2.1, isNumeral.2.2, by simp [isNumeral.1]⟩
      exact ⟨operand settled (gives.holds.noLists (by simp [isNumeral.1]) isNumeral.2.1 isNumeral.2.2), settled⟩
    exact .ite_bind numeral fun e => .assume fun settled => codearith_holds (by decide) settled fun _ => unused
  | not => exact codenot_holds
  | len => exact inReg.bind fun e => .assume fun settled => codearith_holds (by decide) settled fun _ => unused

/-- `gafqK_infix` -/
theorem infixExp_holds {op : Parser.BinOpr} (last : F.last) :
    Ensures (Gives F L k e) (infixExp env op e)
      (fun e' fs => Holds F (waitingLists op e' + L) (waitingRegs op F.nactvar e' + k) fs ∧ Waits op e') Stopped := by
  have settled (other : op ≠ .and ∧ op ≠ .or) {e' : ExpDesc N} {fs : FuncState N} (holds : Holds F L (e'.regs F.nactvar + k) fs)
      (settled : Settled e') : Holds F (waitingLists op e' + L) (waitingRegs op F.nactvar e' + k) fs ∧ Waits op e' := by
    obtain ⟨lists, regs⟩ := waiting_of_other other F.nactvar e'
    rw [lists, regs, zero_add]
    exact ⟨holds, .inr (.inr settled)⟩
  have operand (other : op ≠ .and ∧ op ≠ .or) : Ensures (Gives F L k e) (Prod.fst <$> exp2RK env e)
      (fun e' fs => Holds F (waitingLists op e' + L) (waitingRegs op F.nactvar e' + k) fs ∧ Waits op e') Stopped := by
    refine Ensures.map (.weaken exp2RK_holds (fun _ gives => gives) ?_)
    rintro r fs ⟨holds, operand⟩
    exact settled other holds operand.settled
  have numeral (other : op ≠ .and ∧ op ≠ .or) : Ensures (Gives F L k e) (if e.isnumeral then pure e else Prod.fst <$> exp2RK env e)
      (fun e' fs => Holds F (waitingLists op e' + L) (waitingRegs op F.nactvar e' + k) fs ∧ Waits op e') Stopped := by
    refine .ite (fun isNumeral => fun fs gives => ?_) fun _ => operand other
    have kind := isNumeral.1
    exact settled other (gives.holds.noLists (by simp [kind]) isNumeral.2.1 isNumeral.2.2) ⟨isNumeral.2.1, isNumeral.2.2, by simp [kind]⟩
  cases op
  case and => exact .weaken (goiftrue_holds last) (fun _ gives => gives) fun e' fs holds => ⟨holds.less (by simp [waitingRegs]), .inl rfl⟩
  case or => exact .weaken (goiffalse_holds last) (fun _ gives => gives) fun e' fs holds => ⟨holds.less (by simp [waitingRegs]), .inr (.inl rfl)⟩
  case concat =>
    refine .weaken exp2nextreg_holds (fun _ gives => gives) ?_
    rintro e' fs ⟨holds, reg, inReg, -⟩
    refine settled (by simp) (holds.less ?_) ⟨inReg.t, inReg.f, by simp [inReg.k]⟩
    rw [regs_of_nonreloc inReg.k]
    exact Nat.add_le_add_right (temp_le ..) k
  case add | sub | mul | div | mod | pow => exact numeral (by simp)
  all_goals exact operand (by simp)

/-- The operands of a concatenation are joined when the second one is a concatenation. -/
theorem posfixConcat_holds {e1 e2 : ExpDesc N} (settled : Settled e1) :
    Ensures (Gives F L (e1.regs F.nactvar + k) e2) (posfixConcat env e1 e2) (fun e' => Gives F L k e') Stopped := by
  refine .bind exp2val_holds fun e2 => .get_bind fun fs gives => ?_
  obtain ⟨gives, noTrue, noFalse, -⟩ := gives
  refine .ite (fun isConcat => ?_) fun _ => ?_
  · have holds : Holds F L (e1.regs F.nactvar + k) fs := (gives.holds.noLists (by simp [isConcat.1]) noTrue noFalse).less (by omega)
    have freed : Ensures (· = fs) (freeexp e1) (fun _ fs => Holds F L k fs ∧ Free (getcode fs e2)) Stopped := by
      have stable (fs fs' : FuncState N) (steady : Steady fs fs') : Free (getcode fs e2) → Free (getcode fs' e2) := (steady.code _).free.2
      exact .at_state (Keeps.carry freeexp_keeps stable (freed_holds settled.ne.2.1)) ⟨holds, free_of_opcode isConcat.2 (by decide)⟩
    refine freed.bind fun _ => .bind (modifyCode_holds fun _ => free_of_same (opcode?_setArgB ..)) fun _ => ?_
    rintro fs' ⟨holds, free⟩
    refine ⟨(settled.addLists holds).relocated settled.ne.1, ?_, ?_, ?_, ?_, ?_⟩
    · simp
    · simp [ExpKind.IsSimple]
    · simp
    · simp [ExpDesc.hasmultret]
    · exact fun _ _ isNot => absurd isNot free.2
  · refine .bind (.at_state exp2nextreg_holds gives) fun e2 => ?_
    have inReg : ∀ fs, (Holds F L (1 + (e1.regs F.nactvar + k)) fs ∧ ∃ reg, InReg e2 reg ∧ ↑(e1.regs F.nactvar + k) ≤ reg ∧ reg ≤ 254) →
        Gives F L (e1.regs F.nactvar + k) e2 fs := by
      rintro fs ⟨holds, reg, inReg, -⟩
      refine inReg.gives (holds.less ?_)
      rw [regs_of_nonreloc inReg.k]
      exact Nat.add_le_add_right (temp_le ..) _
    exact .weaken (codearith_holds (by decide) settled (by simp)) inReg fun _ _ gives => gives

/-- `gafqK_posfix` -/
theorem posfixExp_holds {op : Parser.BinOpr} {e1 e2 : ExpDesc N} (waits : Waits op e1) :
    Ensures (Gives F (waitingLists op e1 + L) (waitingRegs op F.nactvar e1 + k) e2) (posfixExp env op e1 e2) (fun e' => Gives F L k e') Stopped := by
  have joined {e2 : ExpDesc N} {l l' : Int} {R : Multiset Int} (lists : e2.lists + ({l'} + L) = {l} + ({l'} + (R + L)))
      (relist : Int → ExpDesc N) (lists' : ∀ l, (relist l).lists = {l} + R)
      (same : ∀ fs l, Fits F e2 fs → Fits F (relist l) fs ∧ (relist l).regs F.nactvar = e2.regs F.nactvar) :
      Ensures (Gives F ({l'} + L) (0 + k) e2) (concat l l' >>= fun l => pure (relist l)) (fun e' => Gives F L k e') Stopped := by
    refine .bind (.weaken (Keeps.fits concat_keeps concat_holds) (fun _ gives => ⟨gives.holds.lists lists, gives.fits⟩) fun _ _ holds => holds) fun l => ?_
    rintro fs ⟨holds, fits⟩
    obtain ⟨fits, regs⟩ := same fs l fits
    refine ⟨(holds.lists ?_).less ?_, fits⟩
    · rw [lists', add_assoc]
    · omega
  have other (isOther : op ≠ .and ∧ op ≠ .or) {m : CodeM N (ExpDesc N)}
      (valid : Settled e1 → Ensures (Gives F L (e1.regs F.nactvar + k) e2) m (fun e' => Gives F L k e') Stopped) :
      Ensures (Gives F (waitingLists op e1 + L) (waitingRegs op F.nactvar e1 + k) e2) m (fun e' => Gives F L k e') Stopped := by
    obtain ⟨lists, regs⟩ := waiting_of_other isOther F.nactvar e1
    rw [lists, regs, zero_add]
    exact valid (waits.settled isOther)
  cases op
  case and =>
    refine .bind dischargevars_gives fun e2 => .assume fun discharged => ?_
    refine joined (R := {e2.t} + if e2.k = .vjmp then {e2.info} else 0) ?_ (fun f => { e2 with f }) ?_ ?_
    · simp only [ExpDesc.lists]
      abel
    · intro f
      simp only [ExpDesc.lists]
      abel
    · exact fun fs f fits => ⟨fits.relist discharged.kind _ f, rfl⟩
  case or =>
    refine .bind dischargevars_gives fun e2 => .assume fun discharged => ?_
    refine joined (R := {e2.f} + if e2.k = .vjmp then {e2.info} else 0) ?_ (fun t => { e2 with t }) ?_ ?_
    · simp only [ExpDesc.lists]
      abel
    · exact fun t => rfl
    · exact fun fs t fits => ⟨fits.relist discharged.kind t _, rfl⟩
  case concat => exact other (by simp) posfixConcat_holds
  case add | sub | mul | div | mod | pow => exact other (by simp) fun settled => codearith_holds (by decide) settled (by simp [arithOp])
  all_goals exact other (by simp) fun settled => codecomp_holds (by decide) settled

end

end Gafq.Code
