import Gafq.Verified.JumpLists
import Gafq.Verified.SteadyCode

/-! # What is held around a piece of code

While the code of one construct is generated others wait: they hold lists of jumps, registers and
instructions that are still to be changed.  A function of `gcode.c` takes lists and registers over from
its caller and gives others back; whatever else is held stays as it is.  Each of its steps is a step of a
configuration, so what is said of configurations holds between any two of them.
-/

namespace Gafq.Code

open Gafq.Base

/-- What a piece of code does not change. -/
structure CodeFrame where
  /-- number of active local variables -/
  nactvar : Nat
  /-- the lists of the open blocks -/
  breaklists : List Int
  /-- the places of instructions that are still to be changed, none of them a jump -/
  plain : List Nat
  /-- the lists of the numeric loops around -/
  loops : Multiset Int
  /-- whether an `OP_NOT` whose value has no register yet must be the last instruction -/
  last : Prop := True

variable {N : Type} {F : CodeFrame} {L : Multiset Int} {k k' : Nat} {fs fs' : FuncState N} {i : Instruction}

/-- The lists `L` are held. -/
def Listed (F : CodeFrame) (L : Multiset Int) (fs : FuncState N) : Prop :=
  ∃ c : Config N, Reachable c ∧ c.fs = fs ∧ c.live = L ∧ c.loops = F.loops ∧ fs.bl.map BlockCnt.breaklist = F.breaklists ∧
    ∀ p ∈ F.plain, p < fs.pc ∧ Free (fs.code p)

/-- The jumps to here are `OP_JMP`s. -/
def JmpHere (fs : FuncState N) : Prop := ∃ here, IsList fs fs.jpc here ∧ ∀ p ∈ here, opcode? (fs.code p) = some .jmp

/-- `k` registers are held; no register is outside of a byte. -/
structure Room (nactvar k : Nat) (fs : FuncState N) : Prop where
  nactvar : fs.nactvar = nactvar
  locals : fs.nactvar ≤ 255
  held : k ≤ fs.freereg
  freereg : fs.freereg ≤ 255
  maxstacksize : fs.maxstacksize ≤ 255

/-- The lists `L` and `k` registers are held; to here, any jumps lead. -/
structure Ready (F : CodeFrame) (L : Multiset Int) (k : Nat) (fs : FuncState N) : Prop where
  listed : Listed F L fs
  room : Room F.nactvar k fs

/-- The lists `L` and `k` registers are held. -/
structure Holds (F : CodeFrame) (L : Multiset Int) (k : Nat) (fs : FuncState N) : Prop extends Ready F L k fs where
  jmpHere : JmpHere fs

/-- An error ends the code generation between two steps or in the middle of `patchlistaux`, at a jump
that is too long. -/
def Stopped (fs : FuncState N) : Prop :=
  ∃ c : Config N, Reachable c ∧ (c.fs = fs ∨ ∃ l ∈ c.pending, ∃ vtarget reg dtarget,
    patchlistaux l vtarget reg dtarget c.fs = .error (.syntaxerror (Lexer.bytes "control structure too long")) fs)

theorem Reachable.step {c c' : Config N} (reachable : Reachable c) (step : Step c c') : Reachable c' := by
  obtain ⟨address, steps⟩ := reachable
  exact ⟨address, steps.tail step⟩

theorem Ready.stopped (ready : Ready F L k fs) : Stopped fs := by
  obtain ⟨c, reachable, isFs, -⟩ := ready.listed
  exact ⟨c, reachable, .inl isFs⟩

theorem Holds.stopped (holds : Holds F L k fs) : Stopped fs := holds.toReady.stopped

theorem Room.less (room : Room F.nactvar k fs) (less : k' ≤ k) : Room F.nactvar k' fs :=
  ⟨room.nactvar, room.locals, by have := room.held; omega, room.freereg, room.maxstacksize⟩

/-- Registers are given up. -/
theorem Holds.less (holds : Holds F L k fs) (less : k' ≤ k) : Holds F L k' fs := ⟨⟨holds.listed, holds.room.less less⟩, holds.jmpHere⟩

theorem Holds.lists {L' : Multiset Int} (holds : Holds F L k fs) (same : L = L') : Holds F L' k fs := same ▸ holds

/-! ## Steps without lists -/

namespace Mild

theorem refl (fs : FuncState N) : Mild fs fs := ⟨rfl, rfl, rfl, List.Subset.refl _, fun _ => .refl _⟩

theorem of_rewired (rewired : Rewired [] fs fs') : Mild fs fs' :=
  ⟨rewired.pc, rewired.jpc, by rw [rewired.bl], by rw [rewired.frame]; exact List.Subset.refl _,
    fun p => rewired.others p List.not_mem_nil⟩

theorem setCode {p : Nat} (same : SameJump (fs.code p) i) : Mild fs { fs with code := Function.update fs.code p i } :=
  of_rewired (.setCode same)

end Mild

theorem Listed.mild (listed : Listed F L fs) (mild : Mild fs fs') : Listed F L fs' := by
  obtain ⟨c, reachable, rfl, live, loops, blocks, plain⟩ := listed
  refine ⟨_, reachable.step (.mild mild), rfl, live, loops, mild.breaklists.trans blocks, fun p member => ?_⟩
  rw [mild.pc, (mild.code p).free]
  exact plain p member

theorem JmpHere.mild (jmpHere : JmpHere fs) (mild : Mild fs fs') : JmpHere fs' := by
  obtain ⟨here, list, jmp⟩ := jmpHere
  have kept : ∀ p ∈ here, opcode? (fs'.code p) = opcode? (fs.code p) ∧ getArgSBx (fs'.code p) = getArgSBx (fs.code p) :=
    fun p member => (mild.code p).of_isJump (.inl (jmp p member))
  refine ⟨here, ?_, fun p member => (kept p member).1.trans (jmp p member)⟩
  rw [mild.jpc]
  exact list.congr fun p member => getjump_congr (kept p member).2

theorem Holds.mild (holds : Holds F L k fs) (mild : Mild fs fs') (room : Room F.nactvar k' fs') : Holds F L k' fs' :=
  ⟨⟨holds.listed.mild mild, room⟩, holds.jmpHere.mild mild⟩

/-- The state has the same registers. -/
structure SameRegs (fs fs' : FuncState N) : Prop where
  nactvar : fs'.nactvar = fs.nactvar
  freereg : fs'.freereg = fs.freereg
  maxstacksize : fs'.maxstacksize = fs.maxstacksize

theorem Room.same (room : Room F.nactvar k fs) (same : SameRegs fs fs') : Room F.nactvar k fs' :=
  ⟨same.nactvar.trans room.nactvar, same.nactvar ▸ room.locals, same.freereg ▸ room.held, same.freereg ▸ room.freereg,
    same.maxstacksize ▸ room.maxstacksize⟩

theorem SameRegs.of_rewired {ps : List Nat} (rewired : Rewired ps fs fs') : SameRegs fs fs' := by
  rw [rewired.frame]
  exact ⟨rfl, rfl, rfl⟩

/-- Code and registers are the same. -/
theorem Holds.quiet (holds : Holds F L k fs) (mild : Mild fs fs') (same : SameRegs fs fs') : Holds F L k fs' :=
  holds.mild mild (holds.room.same same)

theorem getlabel_holds : Ensures (Holds F L k) (getlabel : CodeM N Nat) (fun _ => Holds F L k) Stopped := by
  intro fs holds
  exact holds.quiet ⟨rfl, rfl, rfl, List.subset_append_left .., fun _ => .refl _⟩ ⟨rfl, rfl, rfl⟩

theorem record_holds {e : Event} : Ensures (Holds F L k) (record e : CodeM N Unit) (fun _ => Holds F L k) Stopped := by
  intro fs holds
  exact holds.quiet ⟨rfl, rfl, rfl, List.subset_append_left .., fun _ => .refl _⟩ ⟨rfl, rfl, rfl⟩

theorem fixline_holds {line : Nat} : Ensures (Holds F L k) (fixline line : CodeM N Unit) (fun _ => Holds F L k) Stopped := by
  intro fs holds
  exact holds.quiet ⟨rfl, rfl, rfl, List.Subset.refl _, fun _ => .refl _⟩ ⟨rfl, rfl, rfl⟩

theorem Mild.constants (constants : Constants N) : Mild fs { fs with constants } :=
  ⟨rfl, rfl, rfl, List.Subset.refl _, fun _ => .refl _⟩

theorem onConstants_holds {α : Type} {m : ConstantsM N α} :
    Ensures (Holds F L k) (onConstants m : CodeM N α) (fun _ => Holds F L k) Stopped := by
  intro fs holds
  simp only [onConstants]
  cases m fs.constants with
  | ok a constants => exact holds.quiet (.constants constants) ⟨rfl, rfl, rfl⟩
  | error e constants =>
    have after : Holds F L k { fs with constants } := holds.quiet (.constants constants) ⟨rfl, rfl, rfl⟩
    exact after.stopped

theorem setCode_holds {p : Nat} {fs : FuncState N} (holds : Holds F L k fs) (same : SameJump (fs.code p) i) :
    Holds F L k { fs with code := Function.update fs.code p i } :=
  holds.quiet (.setCode same) ⟨rfl, rfl, rfl⟩

theorem growVector_holds {P : FuncState N → Prop} {nelems limit : Nat} {errormsg : TString} (stopped : ∀ fs, P fs → Stopped fs) :
    Ensures P (growVector nelems limit errormsg : CodeM N Unit) (fun _ => P) Stopped :=
  Ensures.ite (fun _ => fun fs holds => stopped fs holds) fun _ => fun _ holds => holds

/-! ## Registers -/

theorem checkstack_at {n : Int} (holds : Holds F L k fs) :
    Ensures (· = fs) (checkstack n : CodeM N Unit)
      (fun _ fs' => Holds F L k fs' ∧ fs'.freereg = fs.freereg ∧ fs.freereg + n ≤ 255) Stopped := by
  have room := holds.room
  have low := room.held
  have limit := room.maxstacksize
  refine .get_bind fun fs' same => ?_
  subst same
  refine .ite (fun grows => .ite (fun _ => ?_) fun small => ?_) fun fits => ?_
  · rintro _ rfl
    exact holds.stopped
  · rintro _ rfl
    have bound : maxStack = 250 := rfl
    refine ⟨holds.mild ⟨rfl, rfl, rfl, List.Subset.refl _, fun _ => .refl _⟩
      ⟨room.nactvar, room.locals, room.held, room.freereg, ?_⟩, rfl, by omega⟩
    show ((_ % 256 : Int)).toNat ≤ 255
    omega
  · rintro _ rfl
    exact ⟨holds, rfl, by omega⟩

theorem checkstack_holds {n : Int} : Ensures (Holds F L k) (checkstack n : CodeM N Unit) (fun _ => Holds F L k) Stopped :=
  fun fs holds => (Ensures.weaken (checkstack_at holds) (fun _ same => same) fun _ _ holds => holds.1) fs rfl

/-- `gafqK_reserveregs` moves the first free register. -/
theorem reserveregs_at {n : Nat} (holds : Holds F L k fs) :
    Ensures (· = fs) (reserveregs n : CodeM N Unit) (fun _ fs' => Holds F L (n + k) fs' ∧ fs'.freereg = fs.freereg + n) Stopped := by
  refine .bind (checkstack_at holds) fun _ => .modify ?_
  rintro fs' ⟨holds, same, fits⟩
  have room := holds.room
  have held := room.held
  refine ⟨holds.mild ⟨rfl, rfl, rfl, List.Subset.refl _, fun _ => .refl _⟩
    ⟨room.nactvar, room.locals, by simp only; omega, by simp only; omega, room.maxstacksize⟩, ?_⟩
  rw [← same]

theorem reserveregs_holds {n : Nat} : Ensures (Holds F L k) (reserveregs n : CodeM N Unit) (fun _ => Holds F L (n + k)) Stopped :=
  fun fs holds => (Ensures.weaken (reserveregs_at holds) (fun _ same => same) fun _ _ holds => holds.1) fs rfl

theorem reserveregs_one : Ensures (Holds F L k) (reserveregs 1 : CodeM N Unit) (fun _ => Holds F L (1 + k)) Stopped :=
  reserveregs_holds (n := 1)

/-- How many registers `freereg` frees. -/
def temp (nactvar : Nat) (reg : Int) : Nat := if ¬ isK reg.toNat ∧ reg ≥ nactvar then 1 else 0

theorem temp_le (nactvar : Nat) (reg : Int) : temp nactvar reg ≤ 1 := by
  unfold temp
  split <;> omega

theorem freereg_holds {reg : Int} :
    Ensures (Holds F L (temp F.nactvar reg + k)) (freereg reg : CodeM N Unit) (fun _ => Holds F L k) Stopped := by
  refine .get_bind fun fs holds => ?_
  have room := holds.room
  have held := room.held
  rw [temp, ← room.nactvar] at held
  refine .ite (fun frees => ?_) fun keeps => ?_
  · rintro _ rfl
    rw [if_pos frees] at held
    have high := room.freereg
    exact holds.mild ⟨rfl, rfl, rfl, List.Subset.refl _, fun _ => .refl _⟩
      ⟨room.nactvar, room.locals, by simp only; omega, by simp only; omega, room.maxstacksize⟩
  · rintro _ rfl
    exact holds.less (by omega)

/-! ## Lists -/

theorem JmpHere.all {here : List Nat} (jmpHere : JmpHere fs) (list : IsList fs fs.jpc here) : ∀ p ∈ here, opcode? (fs.code p) = some .jmp := by
  obtain ⟨_, list', jmp⟩ := jmpHere
  cases list.unique list' Nat.cast_injective cast_ne_noJump
  exact jmp

theorem JmpHere.of_noJump (empty : fs.jpc = noJump) : JmpHere fs := by
  refine ⟨[], ?_, by simp⟩
  rw [empty]
  exact .nil

theorem Rewired.plain {ps plain : List Nat} (rewired : Rewired ps fs fs') (before : ∀ p ∈ plain, p < fs.pc ∧ Free (fs.code p)) :
    ∀ p ∈ plain, p < fs'.pc ∧ Free (fs'.code p) := by
  intro p member
  rw [rewired.pc, (rewired.sameOp p).free]
  exact before p member

theorem Rewired.jmp {ps here : List Nat} (rewired : Rewired ps fs fs') (jmp : ∀ p ∈ here, opcode? (fs.code p) = some .jmp) :
    ∀ p ∈ here, opcode? (fs'.code p) = some .jmp := by
  intro p member
  rw [(rewired.sameOp p).of_isJump (.inl (jmp p member))]
  exact jmp p member

theorem concat_error {l1 l2 : Int} {e : GenError} (failed : concat l1 l2 fs = .error e fs') : fs' = fs := by
  by_cases none2 : l2 = noJump
  · simp only [concat, if_pos none2] at failed
    cases failed
  by_cases none1 : l1 = noJump
  · simp only [concat, if_neg none2, if_pos none1] at failed
    cases failed
  simp only [concat, if_neg none2, if_neg none1, bind, EStateM.bind, get, getThe, MonadStateOf.get, EStateM.get] at failed
  cases found : lastjump fs (listFuel fs) l1 with
  | none =>
    simp only [found] at failed
    cases failed
    rfl
  | some last =>
    simp only [found, fixjump, bind, EStateM.bind, get, getThe, MonadStateOf.get, EStateM.get] at failed
    by_cases long : (l2 - (last + 1)).natAbs > maxArgSBx
    · simp only [if_pos long] at failed
      cases failed
      rfl
    · simp only [if_neg long] at failed
      cases failed

theorem concat_holds {l1 l2 : Int} :
    Ensures (Holds F ({l1} + ({l2} + L)) k) (concat l1 l2 : CodeM N Int) (fun l => Holds F ({l} + L) k) Stopped := by
  intro fs holds
  obtain ⟨⟨⟨c, reachable, rfl, live, loops, blocks, plain⟩, room⟩, jmpHere⟩ := holds
  simp only [Multiset.singleton_add] at live
  cases ran : concat l1 l2 c.fs with
  | error e fs' =>
    cases concat_error ran
    exact ⟨c, reachable, .inl rfl⟩
  | ok l fs' =>
    obtain ⟨here, held, looping, acc⟩ := reachable.inv
    obtain ⟨acc', ps, rewired⟩ := acc.concat live ran
    refine ⟨⟨⟨_, reachable.step (.concat live ran), rfl, (Multiset.singleton_add ..).symm, loops, ?_, rewired.plain plain⟩,
      room.same (.of_rewired rewired)⟩, here, acc'.jpc, rewired.jmp (jmpHere.all acc.jpc)⟩
    rw [rewired.bl]
    exact blocks

/-- An empty list is not held. -/
theorem Holds.drop (holds : Holds F ({noJump} + L) k fs) : Holds F L k fs := by
  obtain ⟨⟨⟨c, reachable, rfl, live, loops, blocks, plain⟩, room⟩, jmpHere⟩ := holds
  rw [Multiset.singleton_add] at live
  exact ⟨⟨⟨_, reachable.step (.drop live), rfl, rfl, loops, blocks, plain⟩, room⟩, jmpHere⟩

theorem Holds.none (holds : Holds F L k fs) : Holds F ({noJump} + L) k fs := by
  obtain ⟨⟨⟨c, reachable, rfl, rfl, loops, blocks, plain⟩, room⟩, jmpHere⟩ := holds
  exact ⟨⟨⟨_, reachable.step .none, rfl, (Multiset.singleton_add ..).symm, loops, blocks, plain⟩, room⟩, jmpHere⟩

/-- Two lists that begin at one place are empty. -/
theorem Holds.eq_noJump {l : Int} (holds : Holds F ({l} + ({l} + L)) k fs) : l = noJump := by
  obtain ⟨⟨⟨c, reachable, rfl, live, -⟩, -⟩, -⟩ := holds
  obtain ⟨here, held, looping, acc⟩ := reachable.inv
  have lists := acc.lists
  rw [live, Multiset.singleton_add, Multiset.singleton_add, Multiset.add_cons, Multiset.add_cons] at lists
  obtain ⟨cells, rest, first, others, rfl⟩ := lists.of_cons
  obtain ⟨cells', rest, second, -, rfl⟩ := others.of_cons
  by_contra nonempty
  obtain ⟨front, last, rfl⟩ := first.exists_last nonempty
  cases first.unique second Nat.cast_injective cast_ne_noJump
  exact disjoint_of_nodup acc.walkable_held.nodup (p := last) (by simp) (by simp)

theorem patchtohere_holds {l : Int} :
    Ensures (Holds F ({l} + L) k) (patchtohere l : CodeM N Unit) (fun _ => Holds F L k) Stopped := by
  refine .bind getlabel_holds fun _ => .get_bind fun fs holds => ?_
  obtain ⟨⟨⟨c, reachable, rfl, live, loops, blocks, plain⟩, room⟩, jmpHere⟩ := holds
  rw [Multiset.singleton_add] at live
  have joined : Ensures (· = c.fs) (concat c.fs.jpc l : CodeM N Int) (fun jpc fs' => Holds F L k { fs' with jpc }) Stopped := by
    rintro _ rfl
    cases ran : concat c.fs.jpc l c.fs with
    | error e fs' =>
      cases concat_error ran
      exact ⟨c, reachable, .inl rfl⟩
    | ok jpc fs' =>
      obtain ⟨here, held, looping, acc⟩ := reachable.inv
      obtain ⟨cells, rest, rfl, acc', rewired⟩ := acc.tohere live ran
      have jmp : ∀ p ∈ here ++ cells, opcode? (c.fs.code p) = some .jmp := by
        intro p member
        obtain member | member := List.mem_append.1 member
        · exact jmpHere.all acc.jpc p member
        · exact acc.jmp p (by simp [member])
      refine ⟨⟨⟨_, reachable.step (.tohere live ran), rfl, rfl, loops, ?_, rewired.plain plain⟩, ?_⟩,
        here ++ cells, acc'.jpc, rewired.jmp jmp⟩
      · show fs'.bl.map BlockCnt.breaklist = F.breaklists
        rw [rewired.bl]
        exact blocks
      · exact (room.same (.of_rewired rewired)).same ⟨rfl, rfl, rfl⟩
  exact joined.bind fun jpc => .modify fun _ holds => holds

/-- `patchlistaux` takes a list. -/
theorem patchlistaux_holds {l vtarget reg dtarget : Int} :
    Ensures (Holds F ({l} + L) k) (patchlistaux l vtarget reg dtarget : CodeM N Unit) (fun _ => Holds F L k) Stopped := by
  intro fs holds
  obtain ⟨⟨⟨c, reachable, rfl, live, loops, blocks, plain⟩, room⟩, jmpHere⟩ := holds
  rw [Multiset.singleton_add] at live
  have pending : l ∈ c.pending := by simp [Config.pending, live]
  cases ran : patchlistaux l vtarget reg dtarget c.fs with
  | error e fs' =>
    cases reachable.inv.patchlistaux_error pending ran
    exact ⟨c, reachable, .inr ⟨l, pending, vtarget, reg, dtarget, ran⟩⟩
  | ok _ fs' =>
    obtain ⟨cells, list, -⟩ := reachable.inv.isList pending
    obtain ⟨here, held, looping, acc⟩ := reachable.inv
    obtain ⟨rest, acc', rewired⟩ := acc.patchlistaux live list ran
    refine ⟨⟨⟨_, reachable.step (.patchlistaux live list ran), rfl, rfl, loops, ?_, rewired.plain plain⟩,
      room.same (.of_rewired rewired)⟩, here, acc'.jpc, rewired.jmp (jmpHere.all acc.jpc)⟩
    rw [rewired.bl]
    exact blocks

/-! ## Instructions -/

theorem dischargejpc_returned (ran : dischargejpc fs = .ok () fs') : fs'.jpc = noJump := by
  obtain ⟨_, _, -, ran⟩ := bind_returned.1 ran
  obtain ⟨_, _, -, after⟩ := bind_returned.1 ran
  rw [modify_returned.1 after]

theorem dischargejpc_error {e : GenError} (failed : dischargejpc fs = .error e fs') :
    patchlistaux fs.jpc fs.pc noReg fs.pc fs = .error e fs' := by
  simp only [dischargejpc, bind, EStateM.bind, get, getThe, MonadStateOf.get, EStateM.get] at failed
  cases ran : patchlistaux fs.jpc fs.pc noReg fs.pc fs with
  | ok _ _ =>
    simp only [ran] at failed
    cases failed
  | error _ _ =>
    simp only [ran] at failed
    cases failed
    rfl

theorem dischargejpc_holds : Ensures (Ready F L k) (dischargejpc : CodeM N Unit) (fun _ fs => Holds F L k fs ∧ fs.jpc = noJump) Stopped := by
  intro fs ready
  obtain ⟨⟨c, reachable, rfl, live, loops, blocks, plain⟩, room⟩ := ready
  obtain ⟨here, held, looping, acc⟩ := reachable.inv
  cases ran : dischargejpc c.fs with
  | ok _ fs' =>
    obtain ⟨acc', rewired⟩ := acc.dischargejpc acc.jpc ran
    have empty : fs'.jpc = noJump := dischargejpc_returned ran
    refine ⟨⟨⟨⟨_, reachable.step (.dischargejpc acc.jpc ran), rfl, live, loops, ?_, rewired.plain plain⟩,
      (room.same (.of_rewired rewired)).same ⟨rfl, rfl, rfl⟩⟩, .of_noJump empty⟩, empty⟩
    exact (congrArg _ rewired.bl).trans blocks
  | error e fs' =>
    have pending : c.fs.jpc ∈ c.pending := Multiset.mem_cons_self ..
    have failed := dischargejpc_error ran
    cases reachable.inv.patchlistaux_error pending failed
    exact ⟨c, reachable, .inr ⟨_, pending, _, _, _, failed⟩⟩

/-- `gafqK_code` puts its instruction behind the others when no jump leads to here any more. -/
theorem code_carries {P : FuncState N → Prop} {post : Nat → FuncState N → Prop} (stable : ∀ fs fs', Steady fs fs' → P fs → P fs')
    (appended : ∀ fs : FuncState N, Holds F L k fs → fs.jpc = noJump → P fs → post fs.pc (fs.append i)) :
    Ensures (fun fs => Ready F L k fs ∧ P fs) (code i : CodeM N Nat) post Stopped := by
  refine .bind (Keeps.carry dischargejpc_keeps stable dischargejpc_holds) fun _ => .get_bind fun fs holds => ?_
  have room : Ensures (· = fs) (growVector fs.pc Lexer.maxInt (Lexer.bytes "code size overflow") : CodeM N Unit) (fun _ => (· = fs)) Stopped := by
    refine growVector_holds ?_
    rintro _ rfl
    exact holds.1.1.stopped
  refine room.bind fun _ => ?_
  rintro _ rfl
  exact appended _ holds.1.1 holds.1.2 holds.2

theorem code_of {post : Nat → FuncState N → Prop}
    (appended : ∀ fs : FuncState N, Holds F L k fs → fs.jpc = noJump → post fs.pc (fs.append i)) :
    Ensures (Ready F L k) (code i : CodeM N Nat) post Stopped :=
  .weaken (code_carries (P := fun _ => True) (fun _ _ _ known => known) fun fs holds clear _ => appended fs holds clear)
    (fun _ ready => ⟨ready, trivial⟩) fun _ _ holds => holds

/-- What `gafqK_code` leaves: the instruction is the last one, and no jump leads behind it. -/
structure Coded (i : Instruction) (p : Nat) (fs : FuncState N) : Prop where
  pc : p + 1 = fs.pc
  code : fs.code p = i
  jpc : fs.jpc = noJump

theorem coded_append (clear : fs.jpc = noJump) : Coded i fs.pc (fs.append i) := ⟨rfl, append_code_pc, clear⟩

theorem plain_append {plain : List Nat} (before : ∀ p ∈ plain, p < fs.pc ∧ Free (fs.code p)) :
    ∀ p ∈ plain, p < (fs.append i).pc ∧ Free ((fs.append i).code p) := by
  intro p member
  obtain ⟨below, free⟩ := before p member
  rw [append_code_of_lt below]
  exact ⟨Nat.lt_succ_of_lt below, free⟩

/-- An instruction that is no jump. -/
theorem code_holds (plain : ¬ IsJump i) :
    Ensures (Ready F L k) (code i : CodeM N Nat) (fun p fs => Holds F L k fs ∧ Coded i p fs) Stopped := by
  refine code_of fun fs holds clear => ?_
  obtain ⟨⟨⟨c, reachable, rfl, live, loops, blocks, kept⟩, room⟩, -⟩ := holds
  exact ⟨⟨⟨⟨_, reachable.step (.append clear plain), rfl, live, loops, blocks, plain_append kept⟩, room.same ⟨rfl, rfl, rfl⟩⟩,
    .of_noJump clear⟩, coded_append clear⟩

theorem not_isJump {o : OpCode} (isOp : opcode? i = some o) (plain : o ∉ [OpCode.jmp, .forprep, .forloop]) : ¬ IsJump i := by
  simp only [List.mem_cons, List.not_mem_nil, or_false, not_or] at plain
  simp [IsJump, isOp, plain]

theorem codeABC_holds {o : OpCode} {a b c : Int} (plain : o ∉ [OpCode.jmp, .forprep, .forloop]) :
    Ensures (Holds F L k) (codeABC o a b c : CodeM N Nat) (fun p fs => Holds F L k fs ∧ Coded (instrABC o a b c) p fs) Stopped :=
  .weaken (code_holds (not_isJump (opcode?_instrABC ..) plain)) (fun _ holds => holds.toReady) fun _ _ holds => holds

theorem codeABx_holds {o : OpCode} {a bc : Int} (plain : o ∉ [OpCode.jmp, .forprep, .forloop]) :
    Ensures (Holds F L k) (codeABx o a bc : CodeM N Nat) (fun p fs => Holds F L k fs ∧ Coded (instrABx o a bc) p fs) Stopped :=
  .weaken (code_holds (not_isJump (opcode?_instrABx ..) plain)) (fun _ holds => holds.toReady) fun _ _ holds => holds

/-- The lists that are pending here are taken over by a new jump. -/
theorem jump_holds : Ensures (Holds F L k) (jump : CodeM N Int) (fun j => Holds F ({j} + L) k) Stopped := by
  refine .get_bind fun fs holds => ?_
  obtain ⟨⟨⟨c, reachable, rfl, live, loops, blocks, plain⟩, room⟩, jmpHere⟩ := holds
  obtain ⟨here, held, looping, acc⟩ := reachable.inv
  have taken : Ensures (· = c.fs) (modify fun fs => { fs with jpc := noJump } : CodeM N Unit)
      (fun _ => Ready F ({c.fs.jpc} + L) k) Stopped := by
    refine .modify ?_
    rintro _ rfl
    refine ⟨⟨_, reachable.step (.hold acc.jpc (jmpHere.all acc.jpc)), rfl, ?_, loops, blocks, plain⟩, room.same ⟨rfl, rfl, rfl⟩⟩
    rw [← live, Multiset.singleton_add]
  have coded : Ensures (Ready F ({c.fs.jpc} + L) k) (codeAsBx .jmp 0 noJump : CodeM N Nat)
      (fun j => Holds F ({(j : Int)} + ({c.fs.jpc} + L)) k) Stopped := by
    refine code_of fun fs holds clear => ?_
    obtain ⟨⟨⟨c', reachable, rfl, live, loops, blocks, plain⟩, room⟩, -⟩ := holds
    refine ⟨⟨⟨_, reachable.step (.jump clear), rfl, ?_, loops, blocks, plain_append plain⟩, room.same ⟨rfl, rfl, rfl⟩⟩, .of_noJump clear⟩
    rw [← live, Multiset.singleton_add]
  exact taken.bind fun _ => coded.bind fun _ => concat_holds

theorem condjump_holds {o : OpCode} {a b c : Int} (plain : o ∉ [OpCode.jmp, .forprep, .forloop]) :
    Ensures (Holds F L k) (condjump o a b c : CodeM N Int) (fun j => Holds F ({j} + L) k) Stopped :=
  .bind (codeABC_holds plain) fun _ => .weaken jump_holds (fun _ holds => holds.1) fun _ _ holds => holds

theorem patchlist_holds {l target : Int} :
    Ensures (Holds F ({l} + L) k) (patchlist l target : CodeM N Unit) (fun _ => Holds F L k) Stopped :=
  .get_bind fun _ holds => .ite (fun _ => .at_state patchtohere_holds holds) fun _ => .at_state patchlistaux_holds holds

theorem ret_holds {first nret : Int} : Ensures (Holds F L k) (ret first nret : CodeM N Unit) (fun _ => Holds F L k) Stopped :=
  .bind (codeABC_holds (by decide)) fun _ _ holds => holds.1

theorem codeLabel_holds {a b skip : Int} :
    Ensures (Holds F L k) (codeLabel a b skip : CodeM N Nat) (fun _ => Holds F L k) Stopped :=
  .bind getlabel_holds fun _ => .weaken (codeABC_holds (by decide)) (fun _ holds => holds) fun _ _ holds => holds.1

theorem Listed.mem_pending {l : Int} {c : Config N} (live : c.live = {l} + L) : l ∈ c.pending := by
  simp [Config.pending, live]

theorem needvalue_holds {l : Int} :
    Ensures (Holds F ({l} + L) k) (needvalue l : CodeM N Bool) (fun _ => Holds F ({l} + L) k) Stopped := by
  intro fs holds
  obtain ⟨⟨⟨c, reachable, rfl, live, -⟩, -⟩, -⟩ := id holds
  obtain ⟨b, ran⟩ := reachable.inv.walksEnd.needvalue l (Listed.mem_pending live)
  rw [ran]
  exact holds

theorem removevalues_holds {l : Int} :
    Ensures (Holds F ({l} + L) k) (removevalues l : CodeM N Unit) (fun _ => Holds F ({l} + L) k) Stopped := by
  intro fs holds
  obtain ⟨⟨⟨c, reachable, rfl, live, -⟩, -⟩, -⟩ := id holds
  obtain ⟨cells, list, walkable⟩ := reachable.inv.isList (Listed.mem_pending live)
  obtain ⟨fs', ran, rewired⟩ := removevalues_runs list walkable
  rw [ran]
  exact holds.quiet (.of_rewired rewired) (.of_rewired rewired)

theorem nilPlace_connect {first : Int} {pto : Nat} (place : nilPlace fs first = .connect pto) :
    opcode? (fs.code (fs.pc - 1)) = some .loadnil := by
  by_contra other
  simp only [nilPlace, other, if_false] at place
  split_ifs at place

/-- `gafqK_nil` adds an instruction or changes the one before. -/
theorem codeNil_holds {first n : Int} : Ensures (Holds F L k) (codeNil first n : CodeM N Unit) (fun _ => Holds F L k) Stopped := by
  refine .get_bind fun fs holds => ?_
  split
  · exact .at_state record_holds holds
  · next pto place =>
    have loadnil : opcode? (fs.code (fs.pc - 1)) = some .loadnil := nilPlace_connect place
    have same : SameJump (fs.code (fs.pc - 1)) (setArgB (fs.code (fs.pc - 1)) (first + n - 1)) :=
      .inr ⟨free_of_opcode loadnil (by decide), free_of_opcode ((opcode?_setArgB ..).trans loadnil) (by decide)⟩
    have recorded : Ensures (· = fs) (record (.nil fs.pc first n false) : CodeM N Unit)
        (fun _ fs' => Holds F L k fs' ∧ fs'.code = fs.code) Stopped := by
      rintro _ rfl
      exact ⟨record_holds _ holds, rfl⟩
    refine recorded.bind fun _ => .ite (fun _ => .modify ?_) fun _ => fun _ holds => holds.1
    rintro fs' ⟨holds, sameCode⟩
    exact setCode_holds holds (sameCode ▸ same)
  · exact .at_state (.bind (codeABC_holds (by decide)) fun _ => .weaken record_holds (fun _ holds => holds.1) fun _ _ holds => holds) holds

/-- A count word is recorded at once. -/
theorem codeCount_holds : Ensures (Holds F L k) (code i >>= fun pc => record (.count pc) : CodeM N Unit) (fun _ => Holds F L k) Stopped := by
  have coded : Ensures (Ready F L k) (code i : CodeM N Nat)
      (fun p fs' => ∃ fs, Holds F L k fs ∧ fs.jpc = noJump ∧ p = fs.pc ∧ fs' = fs.append i) Stopped :=
    code_of fun fs holds clear => ⟨fs, holds, clear, rfl, rfl⟩
  refine (coded.weaken (fun _ holds => holds.toReady) fun _ _ holds => holds).bind fun p => .modify ?_
  rintro _ ⟨fs, holds, clear, rfl, rfl⟩
  obtain ⟨⟨⟨c, reachable, rfl, live, loops, blocks, plain⟩, room⟩, -⟩ := holds
  exact ⟨⟨⟨_, reachable.step (.count clear), rfl, live, loops, blocks, plain_append plain⟩, room.same ⟨rfl, rfl, rfl⟩⟩, .of_noJump clear⟩

/-- `gafqK_setlist` frees the registers behind `base`. -/
theorem setlist_holds {base nelems tostore : Int} (low : k ≤ base) (high : base ≤ 254) :
    Ensures (Holds F L k) (setlist base nelems tostore : CodeM N Unit) (fun _ => Holds F L (1 + k)) Stopped := by
  have freed : Ensures (Holds F L k) (modify fun fs => { fs with freereg := base + 1 } : CodeM N Unit) (fun _ => Holds F L (1 + k)) Stopped := by
    refine .modify fun fs holds => ?_
    have room := holds.room
    exact holds.mild ⟨rfl, rfl, rfl, List.Subset.refl _, fun _ => .refl _⟩
      ⟨room.nactvar, room.locals, by simp only; omega, by simp only; omega, room.maxstacksize⟩
  refine .ite (fun _ => ?_) fun _ => ?_
  · exact .bind (codeABC_holds (by decide)) fun _ => freed.weaken (fun _ holds => holds.1) fun _ _ holds => holds
  · refine .bind (codeABC_holds (by decide)) fun _ => ?_
    rw [← bind_assoc]
    exact .bind (.weaken codeCount_holds (fun _ holds => holds.1) fun _ _ holds => holds) fun _ => freed

/-! ## Numeric loops -/

/-- A numeric loop whose jump is pending. -/
def CodeFrame.inLoop (F : CodeFrame) (p : Nat) : CodeFrame := { F with loops := {(p : Int)} + F.loops }

/-- The `OP_FORPREP` or the `OP_FORLOOP` of a loop over the registers from `a`. -/
theorem codeLoop_holds {P : FuncState N → Prop} {o : OpCode} {a : Nat} (small : a < 256) (isLoop : o = .forprep ∨ o = .forloop)
    (stable : ∀ fs fs', Steady fs fs' → P fs → P fs') :
    Ensures (fun fs => Ready F L k fs ∧ P fs) (codeAsBx o a noJump : CodeM N Nat)
      (fun p fs' => Holds (F.inLoop p) L k fs' ∧ ∃ fs : FuncState N, P fs ∧ p = fs.pc ∧ fs'.pc = fs.pc + 1) Stopped := by
  refine code_carries stable fun fs holds clear known => ?_
  obtain ⟨⟨⟨c, reachable, rfl, live, loops, blocks, plain⟩, room⟩, -⟩ := holds
  refine ⟨⟨⟨⟨_, reachable.step (.loop clear small isLoop), rfl, live, ?_, blocks, plain_append plain⟩, room.same ⟨rfl, rfl, rfl⟩⟩,
    .of_noJump clear⟩, _, known, rfl, rfl⟩
  simp only [CodeFrame.inLoop, loops, Multiset.singleton_add]

theorem Holds.loop_lt {p : Nat} (holds : Holds (F.inLoop p) L k fs) : p < fs.pc := by
  obtain ⟨⟨⟨c, reachable, rfl, live, loops, -⟩, -⟩, -⟩ := holds
  obtain ⟨here, held, looping, acc⟩ := reachable.inv
  have lists := acc.loops
  rw [loops, CodeFrame.inLoop, Multiset.singleton_add] at lists
  obtain ⟨cells, rest, first, -, rfl⟩ := lists.of_cons
  obtain ⟨more, rfl, -⟩ := first.of_ptr Nat.cast_injective cast_ne_noJump
  exact (acc.walkable_looping.jumps p (by simp)).1

/-- The `OP_FORPREP` of a loop leads to its end. -/
theorem patchtohere_loop {p : Nat} : Ensures (Holds (F.inLoop p) L k) (patchtohere p : CodeM N Unit) (fun _ => Ready F L k) Stopped := by
  refine .bind getlabel_holds fun _ => .get_bind fun fs holds => ?_
  obtain ⟨⟨⟨c, reachable, rfl, live, loops, blocks, plain⟩, room⟩, jmpHere⟩ := holds
  simp only [CodeFrame.inLoop, Multiset.singleton_add] at loops
  have joined : Ensures (· = c.fs) (concat c.fs.jpc p : CodeM N Int) (fun jpc fs' => Ready F L k { fs' with jpc }) Stopped := by
    rintro _ rfl
    cases ran : concat c.fs.jpc p c.fs with
    | error e fs' =>
      cases concat_error ran
      exact ⟨c, reachable, .inl rfl⟩
    | ok jpc fs' =>
      obtain ⟨here, held, looping, acc⟩ := reachable.inv
      obtain ⟨here', looping', acc', rewired⟩ := acc.loophere loops ran
      refine ⟨⟨_, reachable.step (.loophere loops ran), rfl, live, rfl, (congrArg _ rewired.bl).trans blocks, rewired.plain plain⟩, ?_⟩
      exact (room.same (.of_rewired rewired)).same ⟨rfl, rfl, rfl⟩
  exact joined.bind fun jpc => .modify fun _ holds => holds

/-- The `OP_FORLOOP` of a loop leads back. -/
theorem patchlistaux_loop {p : Nat} {vtarget reg dtarget : Int} :
    Ensures (Holds (F.inLoop p) L k) (patchlistaux p vtarget reg dtarget : CodeM N Unit) (fun _ => Holds F L k) Stopped := by
  intro fs holds
  obtain ⟨⟨⟨c, reachable, rfl, live, loops, blocks, plain⟩, room⟩, jmpHere⟩ := holds
  simp only [CodeFrame.inLoop, Multiset.singleton_add] at loops
  have pending : (p : Int) ∈ c.pending := by simp [Config.pending, loops]
  cases ran : patchlistaux p vtarget reg dtarget c.fs with
  | error e fs' =>
    cases reachable.inv.patchlistaux_error pending ran
    exact ⟨c, reachable, .inr ⟨p, pending, vtarget, reg, dtarget, ran⟩⟩
  | ok _ fs' =>
    obtain ⟨cells, list, -⟩ := reachable.inv.isList pending
    obtain ⟨here, held, looping, acc⟩ := reachable.inv
    obtain ⟨rest, acc', rewired⟩ := acc.patchloop loops list ran
    exact ⟨⟨⟨_, reachable.step (.patchloop loops list ran), rfl, live, rfl, (congrArg _ rewired.bl).trans blocks, rewired.plain plain⟩,
      room.same (.of_rewired rewired)⟩, here, acc'.jpc, rewired.jmp (jmpHere.all acc.jpc)⟩

end Gafq.Code
