import Gafq.Base.Returned
import Gafq.Compiler.Scope
import Gafq.Verified.JumpWalks

/-! # Lists of pending jumps

A configuration keeps, next to the state of the code generator, the lists of jumps that its caller holds
and what has become of every jump.  The steps of a configuration are the operations of `gcode.c` on
lists, each on lists that are pending; between them the generator changes no jump.  In every
configuration that is reached the lists are finite, they share no jump, and a jump is either on one of
them or has been given a target once, which it keeps.
-/

namespace Gafq.Code

open Gafq.Base

variable {N : Type} {fs fs' : FuncState N} {i i' : Instruction}

/-! ## Configurations -/

/-- The state of the generator, the lists of jumps that its caller holds, and what has become of the
jumps. -/
structure Config (N : Type) where
  fs : FuncState N
  /-- the lists of expressions, of conditions and of escapes from an `if` -/
  live : Multiset Int := 0
  /-- the lists of the `OP_FORPREP` and of the `OP_FORLOOP` of numeric loops -/
  loops : Multiset Int := 0
  /-- the jumps that have been coded -/
  jumps : Multiset Nat := 0
  /-- the jumps that have been given a target, with it -/
  targets : Multiset (Nat × Int) := 0

/-- The lists of the open blocks. -/
def FuncState.breaklists (fs : FuncState N) : Multiset Int := fs.bl.map BlockCnt.breaklist

/-- The jumps of the code, and those of them that have been given a target. -/
structure Jumps (fs : FuncState N) (jumps : Multiset Nat) (targets : Multiset (Nat × Int)) : Prop where
  nodup : jumps.Nodup
  isJump : ∀ p ∈ jumps, p < fs.pc ∧ IsJump (fs.code p)
  all : ∀ p < fs.pc, IsJump (fs.code p) → .count p ∉ fs.events → p ∈ jumps
  target : ∀ x ∈ targets, x.1 ∈ jumps ∧ jumpTarget fs x.1 = x.2

/-- `fs->jpc` uses the jumps `here`, the other lists use `held` and `looping`; these jumps and those with
a target are all jumps, each of them once. -/
structure Config.Accounted (c : Config N) (here : List Nat) (held looping : Multiset Nat) : Prop where
  jpc : IsList c.fs c.fs.jpc here
  lists : AreLists c.fs (c.fs.breaklists + c.live) held
  loops : AreLists c.fs c.loops looping
  jmp : ∀ p ∈ held, opcode? (c.fs.code p) = some .jmp
  isLoop : ∀ p ∈ looping, opcode? (c.fs.code p) = some .forprep ∨ opcode? (c.fs.code p) = some .forloop
  once : ↑here + (held + (looping + c.targets.map Prod.fst)) = c.jumps
  jumps : Jumps c.fs c.jumps c.targets

/-- The lists of pending jumps are finite, disjoint and all right. -/
def Config.Inv (c : Config N) : Prop := ∃ here held looping, c.Accounted here held looping

/-- What the generator does between two operations on lists: no jump is changed, and no list of a block. -/
structure Mild (fs fs' : FuncState N) : Prop where
  pc : fs'.pc = fs.pc
  jpc : fs'.jpc = fs.jpc
  breaklists : fs'.bl.map BlockCnt.breaklist = fs.bl.map BlockCnt.breaklist
  events : fs.events ⊆ fs'.events
  code : ∀ p, SameJump (fs.code p) (fs'.code p)

/-- The instruction `i` is put behind the others. -/
def FuncState.append (fs : FuncState N) (i : Instruction) : FuncState N :=
  { fs with code := Function.update fs.code fs.pc i, lineinfo := Function.update fs.lineinfo fs.pc fs.lastline, pc := fs.pc + 1 }

/-- The operations on lists of jumps, each on pending lists. -/
inductive Step (c : Config N) : Config N → Prop
  /-- no jump is concerned -/
  | mild {fs' : FuncState N} (mild : Mild c.fs fs') : Step c { c with fs := fs' }
  /-- an instruction that is no jump -/
  | append {i : Instruction} (clear : c.fs.jpc = noJump) (plain : ¬ IsJump i) : Step c { c with fs := c.fs.append i }
  /-- a count word, which can look like any instruction -/
  | count {i : Instruction} (clear : c.fs.jpc = noJump) :
    Step c { c with fs := { c.fs.append i with events := c.fs.events ++ [.count c.fs.pc] } }
  /-- the `OP_JMP` of `gafqK_jump` -/
  | jump (clear : c.fs.jpc = noJump) :
    Step c { c with
      fs := c.fs.append (instrABx .jmp 0 (noJump + maxArgSBx)), live := c.fs.pc ::ₘ c.live, jumps := c.fs.pc ::ₘ c.jumps }
  /-- the `OP_FORPREP` or the `OP_FORLOOP` of `forbody` -/
  | loop {o : OpCode} {a : Nat} (clear : c.fs.jpc = noJump) (small : a < 256) (isLoop : o = .forprep ∨ o = .forloop) :
    Step c { c with
      fs := c.fs.append (instrABx o a (noJump + maxArgSBx)), loops := c.fs.pc ::ₘ c.loops, jumps := c.fs.pc ::ₘ c.jumps }
  | dischargejpc {here : List Nat} {fs' : FuncState N} (list : IsList c.fs c.fs.jpc here)
    (ran : dischargejpc c.fs = .ok () fs') :
    Step c { c with fs := fs', targets := ↑(here.map fun p => (p, (c.fs.pc : Int))) + c.targets }
  /-- `gafqK_jump` saves the list of jumps to here -/
  | hold {here : List Nat} (list : IsList c.fs c.fs.jpc here) (jmp : ∀ p ∈ here, opcode? (c.fs.code p) = some .jmp) :
    Step c { c with fs := { c.fs with jpc := noJump }, live := c.fs.jpc ::ₘ c.live }
  | concat {l1 l2 l : Int} {live : Multiset Int} {fs' : FuncState N} (held : c.live = l1 ::ₘ l2 ::ₘ live)
    (ran : concat l1 l2 c.fs = .ok l fs') : Step c { c with fs := fs', live := l ::ₘ live }
  /-- `gafqK_patchtohere` -/
  | tohere {l jpc : Int} {live : Multiset Int} {fs' : FuncState N} (held : c.live = l ::ₘ live)
    (ran : Code.concat c.fs.jpc l c.fs = .ok jpc fs') : Step c { c with fs := { fs' with jpc }, live }
  /-- `gafqK_patchtohere` for the `OP_FORPREP` of a loop -/
  | loophere {l jpc : Int} {loops : Multiset Int} {fs' : FuncState N} (held : c.loops = l ::ₘ loops)
    (ran : Code.concat c.fs.jpc l c.fs = .ok jpc fs') : Step c { c with fs := { fs' with jpc }, loops }
  | patchlistaux {l vtarget reg dtarget : Int} {live : Multiset Int} {cells : List Nat} {fs' : FuncState N}
    (held : c.live = l ::ₘ live) (list : IsList c.fs l cells) (ran : patchlistaux l vtarget reg dtarget c.fs = .ok () fs') :
    Step c { c with fs := fs', live, targets := ↑(cells.map fun p => (p, destination c.fs vtarget dtarget p)) + c.targets }
  /-- `patchlistaux` for the `OP_FORLOOP` of a loop -/
  | patchloop {l vtarget reg dtarget : Int} {loops : Multiset Int} {cells : List Nat} {fs' : FuncState N}
    (held : c.loops = l ::ₘ loops) (list : IsList c.fs l cells)
    (ran : Code.patchlistaux l vtarget reg dtarget c.fs = .ok () fs') :
    Step c { c with fs := fs', loops, targets := ↑(cells.map fun p => (p, destination c.fs vtarget dtarget p)) + c.targets }
  | enterblock {b : BlockCnt} (isNew : b.breaklist = noJump) : Step c { c with fs := { c.fs with bl := b :: c.fs.bl } }
  /-- `leaveblock` takes the list of the block -/
  | leaveblock {b : BlockCnt} {previous : List BlockCnt} (innermost : c.fs.bl = b :: previous) :
    Step c { c with fs := { c.fs with bl := previous }, live := b.breaklist ::ₘ c.live }
  /-- `breakstat` adds a jump to the list of a loop -/
  | breakstat {n : Nat} {b : BlockCnt} {j breaklist : Int} {live : Multiset Int} {fs' : FuncState N}
    (isLoop : c.fs.bl[n]? = some b) (held : c.live = j ::ₘ live) (ran : Code.concat b.breaklist j c.fs = .ok breaklist fs') :
    Step c { c with fs := { fs' with bl := fs'.bl.modify n fun b => { b with breaklist } }, live }
  /-- `jumponcond` removes an `OP_NOT` -/
  | removenot (nonempty : 0 < c.fs.pc) (isNot : opcode? (c.fs.code (c.fs.pc - 1)) = some .not) :
    Step c { c with fs := { c.fs with pc := c.fs.pc - 1 } }
  /-- an empty list need not be held -/
  | none : Step c { c with live := noJump ::ₘ c.live }
  | drop {live : Multiset Int} (held : c.live = noJump ::ₘ live) : Step c { c with live }

/-- The configurations on the way of the code of one function. -/
def Reachable (c : Config N) : Prop := ∃ address, Relation.ReflTransGen Step { fs := Compiler.newFuncState address } c

/-! ## What a step leaves of the jumps -/

namespace Jumps

variable {jumps : Multiset Nat} {targets : Multiset (Nat × Int)} {ps : List Nat}

theorem rewired (known : Jumps fs jumps targets) (rewired : Rewired ps fs fs') (apart : ∀ x ∈ targets, x.1 ∉ ps) :
    Jumps fs' jumps targets where
  nodup := known.nodup
  isJump p member := by
    rw [rewired.pc, (rewired.sameOp p).isJump]
    exact known.isJump p member
  all p below isJump notCount := by
    rw [rewired.pc] at below
    rw [rewired.frame] at notCount
    exact known.all p below ((rewired.sameOp p).isJump.1 isJump) notCount
  target x member := by
    obtain ⟨inJumps, target⟩ := known.target x member
    have kept := (rewired.others x.1 (apart x member)).of_isJump (known.isJump x.1 inJumps).2
    exact ⟨inJumps, by rw [jumpTarget, kept.2, ← target, jumpTarget]⟩

theorem mild (known : Jumps fs jumps targets) (mild : Mild fs fs') : Jumps fs' jumps targets where
  nodup := known.nodup
  isJump p member := by
    rw [mild.pc, (mild.code p).isJump]
    exact known.isJump p member
  all p below isJump notCount := by
    rw [mild.pc] at below
    exact known.all p below ((mild.code p).isJump.1 isJump) fun isCount => notCount (mild.events isCount)
  target x member := by
    obtain ⟨inJumps, target⟩ := known.target x member
    have kept := (mild.code x.1).of_isJump (known.isJump x.1 inJumps).2
    exact ⟨inJumps, by rw [jumpTarget, kept.2, ← target, jumpTarget]⟩

theorem withJpc (known : Jumps fs jumps targets) (jpc : Int) : Jumps { fs with jpc } jumps targets :=
  ⟨known.nodup, known.isJump, known.all, known.target⟩

theorem withBl (known : Jumps fs jumps targets) (bl : List BlockCnt) : Jumps { fs with bl } jumps targets :=
  ⟨known.nodup, known.isJump, known.all, known.target⟩

/-- Targets for other jumps. -/
theorem give {given : Multiset (Nat × Int)} (known : Jumps fs jumps targets)
    (new : ∀ x ∈ given, x.1 ∈ jumps ∧ jumpTarget fs x.1 = x.2) : Jumps fs jumps (given + targets) where
  nodup := known.nodup
  isJump := known.isJump
  all := known.all
  target x member := (Multiset.mem_add.1 member).elim (new x) (known.target x)

end Jumps

section

variable {p : Nat}

theorem append_code_of_lt (below : p < fs.pc) : (fs.append i).code p = fs.code p := Function.update_of_ne (by omega) ..

theorem append_code_pc : (fs.append i).code fs.pc = i := Function.update_self ..

theorem getjump_append (below : p < fs.pc) : getjump (fs.append i) p = getjump fs p :=
  getjump_congr (by rw [append_code_of_lt below])

theorem Jumps.append {jumps : Multiset Nat} {targets : Multiset (Nat × Int)} (known : Jumps fs jumps targets) :
    (∀ p ∈ jumps, p < (fs.append i).pc ∧ IsJump ((fs.append i).code p)) ∧
    (∀ p < fs.pc, IsJump ((fs.append i).code p) → .count p ∉ fs.events → p ∈ jumps) ∧
    ∀ x ∈ targets, x.1 ∈ jumps ∧ jumpTarget (fs.append i) x.1 = x.2 := by
  refine ⟨fun p member => ?_, fun p below => ?_, fun x member => ?_⟩
  · obtain ⟨below, isJump⟩ := known.isJump p member
    rw [append_code_of_lt below]
    exact ⟨Nat.lt_succ_of_lt below, isJump⟩
  · rw [append_code_of_lt below]
    exact known.all p below
  · obtain ⟨inJumps, target⟩ := known.target x member
    rw [jumpTarget, append_code_of_lt (known.isJump x.1 inJumps).1]
    exact ⟨inJumps, target⟩

end

namespace Config.Accounted

variable {c : Config N} {here : List Nat} {held looping : Multiset Nat}

theorem walkable (acc : c.Accounted here held looping) : Walkable c.fs (↑here + (held + (looping + c.targets.map Prod.fst))) := by
  rw [acc.once]
  exact ⟨acc.jumps.nodup, acc.jumps.isJump⟩

theorem mild (acc : c.Accounted here held looping) (mild : Mild c.fs fs') : Accounted { c with fs := fs' } here held looping := by
  have kept : ∀ p ∈ (↑here : Multiset Nat) + (held + (looping + c.targets.map Prod.fst)),
      opcode? (fs'.code p) = opcode? (c.fs.code p) ∧ getjump fs' p = getjump c.fs p := by
    intro p member
    have same := (mild.code p).of_isJump (acc.walkable.jumps p member).2
    exact ⟨same.1, getjump_congr same.2⟩
  refine ⟨?_, ?_, ?_, fun p member => ?_, fun p member => ?_, acc.once, acc.jumps.mild mild⟩
  · show IsList fs' fs'.jpc here
    rw [mild.jpc]
    exact acc.jpc.congr fun p member => (kept p (by simp [member])).2
  · show AreLists fs' (fs'.breaklists + c.live) held
    rw [FuncState.breaklists, mild.breaklists]
    exact acc.lists.congr fun p member => (kept p (by simp [member])).2
  · exact acc.loops.congr fun p member => (kept p (by simp [member])).2
  · exact (kept p (by simp [member])).1.trans (acc.jmp p member)
  · rw [(kept p (by simp [member])).1]
    exact acc.isLoop p member

/-- The lists and the jumps behind which an instruction is put. -/
theorem before (acc : c.Accounted here held looping) :
    IsList (c.fs.append i) c.fs.jpc here ∧ AreLists (c.fs.append i) (c.fs.breaklists + c.live) held ∧
    AreLists (c.fs.append i) c.loops looping ∧ (∀ p ∈ held, opcode? ((c.fs.append i).code p) = some .jmp) ∧
    ∀ p ∈ looping, opcode? ((c.fs.append i).code p) = some .forprep ∨ opcode? ((c.fs.append i).code p) = some .forloop := by
  have below : ∀ p ∈ (↑here : Multiset Nat) + (held + (looping + c.targets.map Prod.fst)), p < c.fs.pc :=
    fun p member => (acc.walkable.jumps p member).1
  refine ⟨?_, ?_, ?_, fun p member => ?_, fun p member => ?_⟩
  · exact acc.jpc.congr fun p member => getjump_append (below p (by simp [member]))
  · exact acc.lists.congr fun p member => getjump_append (below p (by simp [member]))
  · exact acc.loops.congr fun p member => getjump_append (below p (by simp [member]))
  · rw [append_code_of_lt (below p (by simp [member]))]
    exact acc.jmp p member
  · rw [append_code_of_lt (below p (by simp [member]))]
    exact acc.isLoop p member

theorem append (acc : c.Accounted here held looping) (plain : ¬ IsJump i) :
    Accounted { c with fs := c.fs.append i } here held looping := by
  obtain ⟨jpc, lists, loops, jmp, isLoop⟩ := acc.before (i := i)
  obtain ⟨isJump, all, target⟩ := acc.jumps.append (i := i)
  refine ⟨jpc, lists, loops, jmp, isLoop, acc.once, acc.jumps.nodup, isJump, fun p below isJump notCount => ?_, target⟩
  obtain below | rfl := Nat.lt_succ_iff_lt_or_eq.1 below
  · exact all p below isJump notCount
  · rw [append_code_pc] at isJump
    exact absurd isJump plain

theorem count (acc : c.Accounted here held looping) :
    Accounted { c with fs := { c.fs.append i with events := c.fs.events ++ [.count c.fs.pc] } } here held looping := by
  obtain ⟨jpc, lists, loops, jmp, isLoop⟩ := acc.before (i := i)
  obtain ⟨isJump, all, target⟩ := acc.jumps.append (i := i)
  refine ⟨jpc, lists, loops, jmp, isLoop, acc.once, acc.jumps.nodup, isJump, fun p below isJump notCount => ?_, target⟩
  simp only [List.mem_append, List.mem_singleton, not_or] at notCount
  obtain below | rfl := Nat.lt_succ_iff_lt_or_eq.1 below
  · exact all p below isJump notCount.1
  · exact absurd rfl notCount.2

end Config.Accounted

/-- The jump that is put behind the others is a list of its own. -/
theorem isList_append {o : OpCode} {a : Nat} (small : a < 256) :
    IsList (fs.append (instrABx o a (noJump + maxArgSBx))) fs.pc [fs.pc] := by
  have ends : getjump (fs.append (instrABx o a (noJump + maxArgSBx))) fs.pc = noJump := by
    simp only [getjump, Int.toNat_natCast, append_code_pc, getArgSBx_instrABx o small, if_true]
  refine .cons ?_
  rw [ends]
  exact .nil

theorem Jumps.appendJump {jumps : Multiset Nat} {targets : Multiset (Nat × Int)} (known : Jumps fs jumps targets) (jump : IsJump i) :
    Jumps (fs.append i) (fs.pc ::ₘ jumps) targets := by
  obtain ⟨isJump, all, target⟩ := known.append (i := i)
  refine ⟨?_, fun p member => ?_, fun p below jump' notCount => ?_, fun x member => ?_⟩
  · exact Multiset.nodup_cons.2 ⟨fun member => Nat.lt_irrefl _ (known.isJump _ member).1, known.nodup⟩
  · obtain rfl | member := Multiset.mem_cons.1 member
    · rw [append_code_pc]
      exact ⟨Nat.lt_succ_self _, jump⟩
    · exact isJump p member
  · obtain below | rfl := Nat.lt_succ_iff_lt_or_eq.1 below
    · exact Multiset.mem_cons_of_mem (all p below jump' notCount)
    · exact Multiset.mem_cons_self ..
  · exact ⟨Multiset.mem_cons_of_mem (target x member).1, (target x member).2⟩

namespace Config.Accounted

variable {c : Config N} {here : List Nat} {held looping : Multiset Nat}

theorem jump (acc : c.Accounted here held looping) :
    Accounted { c with
      fs := c.fs.append (instrABx .jmp 0 (noJump + maxArgSBx)), live := c.fs.pc ::ₘ c.live, jumps := c.fs.pc ::ₘ c.jumps }
      here (↑[c.fs.pc] + held) looping := by
  obtain ⟨jpc, lists, loops, jmp, isLoop⟩ := acc.before (i := instrABx .jmp 0 (noJump + maxArgSBx))
  refine ⟨jpc, ?_, loops, fun p member => ?_, isLoop, ?_, acc.jumps.appendJump (.inl (opcode?_instrABx ..))⟩
  · show AreLists _ (c.fs.breaklists + (c.fs.pc : Int) ::ₘ c.live) _
    rw [Multiset.add_cons]
    exact AllThreaded.cons (isList_append (a := 0) (by decide)) lists
  · obtain isNew | member := Multiset.mem_add.1 member
    · cases List.mem_singleton.1 (Multiset.mem_coe.1 isNew)
      rw [append_code_pc, opcode?_instrABx]
    · exact jmp p member
  · show ↑here + (↑[c.fs.pc] + held + (looping + c.targets.map Prod.fst)) = c.fs.pc ::ₘ c.jumps
    rw [← acc.once, ← Multiset.singleton_add, Multiset.coe_singleton]
    abel

theorem loop (acc : c.Accounted here held looping) {o : OpCode} {a : Nat} (small : a < 256) (loopOp : o = .forprep ∨ o = .forloop) :
    Accounted { c with
      fs := c.fs.append (instrABx o a (noJump + maxArgSBx)), loops := c.fs.pc ::ₘ c.loops, jumps := c.fs.pc ::ₘ c.jumps }
      here held (↑[c.fs.pc] + looping) := by
  obtain ⟨jpc, lists, loops, jmp, isLoop⟩ := acc.before (i := instrABx o a (noJump + maxArgSBx))
  have opcode : opcode? (instrABx o a (noJump + maxArgSBx)) = some .forprep ∨ opcode? (instrABx o a (noJump + maxArgSBx)) = some .forloop := by
    rw [opcode?_instrABx]
    exact loopOp.imp (congrArg some) (congrArg some)
  refine ⟨jpc, lists, AllThreaded.cons (isList_append small) loops, jmp, fun p member => ?_, ?_, acc.jumps.appendJump (.inr opcode)⟩
  · obtain isNew | member := Multiset.mem_add.1 member
    · cases List.mem_singleton.1 (Multiset.mem_coe.1 isNew)
      rw [append_code_pc]
      exact opcode
    · exact isLoop p member
  · show ↑here + (held + (↑[c.fs.pc] + looping + c.targets.map Prod.fst)) = c.fs.pc ::ₘ c.jumps
    rw [← acc.once, ← Multiset.singleton_add, Multiset.coe_singleton]
    abel

/-- What remains of the configuration when jumps at `ps` have been changed. -/
theorem rewired {ps : List Nat} (acc : c.Accounted here held looping) (rewired : Rewired ps c.fs fs') :
    (∀ p ∈ held, opcode? (fs'.code p) = some .jmp) ∧
    (∀ p ∈ looping, opcode? (fs'.code p) = some .forprep ∨ opcode? (fs'.code p) = some .forloop) ∧
    ((∀ p ∈ c.targets.map Prod.fst, p ∉ ps) → Jumps fs' c.jumps c.targets) := by
  have kept : ∀ p ∈ (↑here : Multiset Nat) + (held + (looping + c.targets.map Prod.fst)), opcode? (fs'.code p) = opcode? (c.fs.code p) :=
    fun p member => (rewired.sameOp p).of_isJump (acc.walkable.jumps p member).2
  refine ⟨fun p member => ?_, fun p member => ?_, fun apart => ?_⟩
  · exact (kept p (by simp [member])).trans (acc.jmp p member)
  · rw [kept p (by simp [member])]
    exact acc.isLoop p member
  · exact acc.jumps.rewired rewired fun x member => apart x.1 (Multiset.mem_map_of_mem _ member)

/-- `fs->jpc` is the same when none of its jumps has been changed. -/
theorem keepsJpc {ps : List Nat} (acc : c.Accounted here held looping) (rewired : Rewired ps c.fs fs') (apart : ∀ p ∈ here, p ∉ ps) :
    IsList fs' c.fs.jpc here :=
  rewired.isList acc.jpc (fun p member => (acc.walkable.jumps p (by simp [member])).2) apart

theorem keepsLists {ps : List Nat} (acc : c.Accounted here held looping) (rewired : Rewired ps c.fs fs')
    (apart : ∀ p ∈ held, p ∉ ps) : AreLists fs' (c.fs.breaklists + c.live) held :=
  rewired.areLists acc.lists (fun p member => (acc.walkable.jumps p (by simp [member])).2) apart

theorem keepsLoops {ps : List Nat} (acc : c.Accounted here held looping) (rewired : Rewired ps c.fs fs')
    (apart : ∀ p ∈ looping, p ∉ ps) : AreLists fs' c.loops looping :=
  rewired.areLists acc.loops (fun p member => (acc.walkable.jumps p (by simp [member])).2) apart

/-- The jumps that are not on the lists of the caller. -/
theorem apart_of_le_held {ps : List Nat} (acc : c.Accounted here held looping) (among : ↑ps ≤ held) :
    ∀ p ∈ (↑here : Multiset Nat) + (looping + c.targets.map Prod.fst), p ∉ ps := by
  intro p member inPs
  have nodup := acc.walkable.nodup
  rw [add_left_comm] at nodup
  exact disjoint_of_nodup nodup (Multiset.mem_of_le among (Multiset.mem_coe.2 inPs)) member

/-- The jumps that do not lead to here. -/
theorem apart_of_here (acc : c.Accounted here held looping) :
    ∀ p ∈ held + (looping + c.targets.map Prod.fst), p ∉ here :=
  fun _ member inHere => disjoint_of_nodup acc.walkable.nodup (Multiset.mem_coe.2 inHere) member

theorem apart_of_le_looping {ps : List Nat} (acc : c.Accounted here held looping) (among : ↑ps ≤ looping) :
    ∀ p ∈ (↑here : Multiset Nat) + (held + c.targets.map Prod.fst), p ∉ ps := by
  intro p member inPs
  have nodup := acc.walkable.nodup
  rw [add_left_comm held, add_left_comm] at nodup
  exact disjoint_of_nodup nodup (Multiset.mem_of_le among (Multiset.mem_coe.2 inPs)) member

theorem walkable_held (acc : c.Accounted here held looping) : Walkable c.fs held :=
  acc.walkable.mono (by rw [add_left_comm]; exact Multiset.le_add_right _ _)

theorem walkable_looping (acc : c.Accounted here held looping) : Walkable c.fs looping :=
  acc.walkable.mono (by rw [add_left_comm held, add_left_comm]; exact Multiset.le_add_right _ _)

theorem concat (acc : c.Accounted here held looping) {l1 l2 l : Int} {live : Multiset Int} (isHeld : c.live = l1 ::ₘ l2 ::ₘ live)
    (ran : Code.concat l1 l2 c.fs = .ok l fs') :
    Accounted { c with fs := fs', live := l ::ₘ live } here held looping ∧ ∃ ps, Rewired ps c.fs fs' := by
  have lists := acc.lists
  rw [isHeld, Multiset.add_cons, Multiset.add_cons] at lists
  obtain ⟨lists, ps, among, rewired⟩ := concat_merges lists acc.walkable_held ran
  obtain ⟨jmp, isLoop, jumps⟩ := acc.rewired rewired
  have apart := acc.apart_of_le_held among
  refine ⟨⟨?_, ?_, acc.keepsLoops rewired fun p member => apart p (by simp [member]), jmp, isLoop, acc.once,
    jumps fun p member => apart p (Multiset.mem_add.2 (.inr (Multiset.mem_add.2 (.inr member))))⟩, ps, rewired⟩
  · show IsList fs' fs'.jpc here
    rw [rewired.jpc]
    exact acc.keepsJpc rewired fun p member => apart p (by simp [member])
  · show AreLists fs' (fs'.breaklists + l ::ₘ live) held
    rw [Multiset.add_cons, FuncState.breaklists, rewired.bl]
    exact lists

/-- Pending jumps are joined to the list of jumps to here. -/
theorem tohere (acc : c.Accounted here held looping) {l jpc : Int} {live : Multiset Int} (isHeld : c.live = l ::ₘ live)
    (ran : Code.concat c.fs.jpc l c.fs = .ok jpc fs') :
    ∃ (cells : List Nat) (rest : Multiset Nat), held = ↑cells + rest ∧
      Accounted { c with fs := { fs' with jpc }, live } (here ++ cells) rest looping ∧ Rewired here c.fs fs' := by
  have lists := acc.lists
  rw [isHeld, Multiset.add_cons] at lists
  have walkable : Walkable c.fs (↑here + held) := acc.walkable.mono (by rw [← add_assoc]; exact Multiset.le_add_right _ _)
  obtain ⟨cells, rest, rfl, joined, others, rewired⟩ := concat_appends acc.jpc lists walkable ran
  obtain ⟨jmp, isLoop, jumps⟩ := acc.rewired rewired
  have apart := acc.apart_of_here
  have loops := acc.keepsLoops rewired fun p member => apart p (by simp [member])
  have jumps := jumps fun p member => apart p (Multiset.mem_add.2 (.inr (Multiset.mem_add.2 (.inr member))))
  refine ⟨cells, rest, rfl, ⟨joined, ?_, loops, fun p member => jmp p (by simp [member]), isLoop, ?_, jumps.withJpc jpc⟩, rewired⟩
  · show AreLists fs' (fs'.breaklists + live) rest
    rw [FuncState.breaklists, rewired.bl]
    exact others
  · show ↑(here ++ cells) + (rest + (looping + c.targets.map Prod.fst)) = c.jumps
    rw [← acc.once, ← Multiset.coe_add]
    abel

theorem loophere (acc : c.Accounted here held looping) {l jpc : Int} {loops : Multiset Int} (isHeld : c.loops = l ::ₘ loops)
    (ran : Code.concat c.fs.jpc l c.fs = .ok jpc fs') :
    ∃ (here' : List Nat) (looping' : Multiset Nat),
      Accounted { c with fs := { fs' with jpc }, loops } here' held looping' ∧ Rewired here c.fs fs' := by
  have lists := acc.loops
  rw [isHeld] at lists
  have walkable : Walkable c.fs (↑here + looping) :=
    acc.walkable.mono (by rw [add_left_comm held, ← add_assoc]; exact Multiset.le_add_right _ _)
  obtain ⟨cells, rest, rfl, joined, others, rewired⟩ := concat_appends acc.jpc lists walkable ran
  obtain ⟨jmp, isLoop, jumps⟩ := acc.rewired rewired
  have apart := acc.apart_of_here
  have jumps := jumps fun p member => apart p (Multiset.mem_add.2 (.inr (Multiset.mem_add.2 (.inr member))))
  refine ⟨here ++ cells, rest, ⟨joined, ?_, others, jmp, fun p member => isLoop p (by simp [member]), ?_, jumps.withJpc jpc⟩, rewired⟩
  · show AreLists fs' (fs'.breaklists + c.live) held
    rw [FuncState.breaklists, rewired.bl]
    exact acc.keepsLists rewired fun p member => apart p (by simp [member])
  · show ↑(here ++ cells) + (held + (rest + c.targets.map Prod.fst)) = c.jumps
    rw [← acc.once, ← Multiset.coe_add]
    abel

/-- The jumps of a list get their targets. -/
theorem given {cells : List Nat} {dest : Nat → Int} {rest : Multiset Nat} (acc : c.Accounted here held looping)
    (rewired : Rewired cells c.fs fs') (pending : ↑cells + (rest + c.targets.map Prod.fst) = c.jumps)
    (targets : ∀ p ∈ cells, jumpTarget fs' p = dest p) :
    Jumps fs' c.jumps (↑(cells.map fun p => (p, dest p)) + c.targets) := by
  have apart : ∀ p ∈ c.targets.map Prod.fst, p ∉ cells := by
    intro p member inCells
    have nodup := acc.jumps.nodup
    rw [← pending] at nodup
    exact disjoint_of_nodup nodup (Multiset.mem_coe.2 inCells) (Multiset.mem_add.2 (.inr member))
  refine ((acc.rewired rewired).2.2 apart).give fun x member => ?_
  obtain ⟨p, inCells, rfl⟩ := List.mem_map.1 (Multiset.mem_coe.1 member)
  refine ⟨?_, targets p inCells⟩
  rw [← pending]
  exact Multiset.mem_add.2 (.inl (Multiset.mem_coe.2 inCells))

theorem patchlistaux (acc : c.Accounted here held looping) {l vtarget reg dtarget : Int} {live : Multiset Int} {cells : List Nat}
    (isHeld : c.live = l ::ₘ live) (list : IsList c.fs l cells) (ran : Code.patchlistaux l vtarget reg dtarget c.fs = .ok () fs') :
    ∃ rest, Accounted
      { c with fs := fs', live, targets := ↑(cells.map fun p => (p, destination c.fs vtarget dtarget p)) + c.targets }
      here rest looping ∧ Rewired cells c.fs fs' := by
  have lists := acc.lists
  rw [isHeld, Multiset.add_cons] at lists
  obtain ⟨rest, rfl, others, rewired, targets⟩ := patchlistaux_patches lists list acc.walkable_held ran
  obtain ⟨jmp, isLoop, -⟩ := acc.rewired rewired
  have apart := acc.apart_of_le_held (Multiset.le_add_right ↑cells rest)
  have pending : ↑cells + (↑here + (rest + looping) + c.targets.map Prod.fst) = c.jumps := by
    rw [← acc.once]
    abel
  refine ⟨rest, ⟨?_, ?_, acc.keepsLoops rewired fun p member => apart p (by simp [member]),
    fun p member => jmp p (by simp [member]), isLoop, ?_, acc.given rewired pending targets⟩, rewired⟩
  · show IsList fs' fs'.jpc here
    rw [rewired.jpc]
    exact acc.keepsJpc rewired fun p member => apart p (by simp [member])
  · show AreLists fs' (fs'.breaklists + live) rest
    rw [FuncState.breaklists, rewired.bl]
    exact others
  · rw [← acc.once, Multiset.map_add, Multiset.map_coe, List.map_map]
    simp only [Function.comp_def, List.map_id']
    abel

theorem patchloop (acc : c.Accounted here held looping) {l vtarget reg dtarget : Int} {loops : Multiset Int} {cells : List Nat}
    (isHeld : c.loops = l ::ₘ loops) (list : IsList c.fs l cells) (ran : Code.patchlistaux l vtarget reg dtarget c.fs = .ok () fs') :
    ∃ rest, Accounted
      { c with fs := fs', loops, targets := ↑(cells.map fun p => (p, destination c.fs vtarget dtarget p)) + c.targets }
      here held rest ∧ Rewired cells c.fs fs' := by
  have lists := acc.loops
  rw [isHeld] at lists
  obtain ⟨rest, rfl, others, rewired, targets⟩ := patchlistaux_patches lists list acc.walkable_looping ran
  obtain ⟨jmp, isLoop, -⟩ := acc.rewired rewired
  have apart := acc.apart_of_le_looping (Multiset.le_add_right ↑cells rest)
  have pending : ↑cells + (↑here + (held + rest) + c.targets.map Prod.fst) = c.jumps := by
    rw [← acc.once]
    abel
  refine ⟨rest, ⟨?_, ?_, others, jmp, fun p member => isLoop p (by simp [member]), ?_,
    acc.given rewired pending targets⟩, rewired⟩
  · show IsList fs' fs'.jpc here
    rw [rewired.jpc]
    exact acc.keepsJpc rewired fun p member => apart p (by simp [member])
  · show AreLists fs' (fs'.breaklists + c.live) held
    rw [FuncState.breaklists, rewired.bl]
    exact acc.keepsLists rewired fun p member => apart p (by simp [member])
  · rw [← acc.once, Multiset.map_add, Multiset.map_coe, List.map_map]
    simp only [Function.comp_def, List.map_id']
    abel

/-- `gafqK_jump` takes the list of jumps to here. -/
theorem hold (acc : c.Accounted here held looping) (allJmp : ∀ p ∈ here, opcode? (c.fs.code p) = some .jmp) :
    Accounted { c with fs := { c.fs with jpc := noJump }, live := c.fs.jpc ::ₘ c.live } [] (↑here + held) looping := by
  refine ⟨.nil, ?_, acc.loops, fun p member => ?_, acc.isLoop, ?_, acc.jumps.withJpc noJump⟩
  · show AreLists c.fs (c.fs.breaklists + c.fs.jpc ::ₘ c.live) (↑here + held)
    rw [Multiset.add_cons]
    exact AllThreaded.cons acc.jpc acc.lists
  · exact (Multiset.mem_add.1 member).elim (fun inHere => allJmp p (Multiset.mem_coe.1 inHere)) (acc.jmp p)
  · show ↑([] : List Nat) + (↑here + held + (looping + c.targets.map Prod.fst)) = c.jumps
    rw [← acc.once, Multiset.coe_nil]
    abel

theorem dischargejpc {here' : List Nat} (acc : c.Accounted here held looping) (list : IsList c.fs c.fs.jpc here')
    (ran : Code.dischargejpc c.fs = .ok () fs') :
    Accounted { c with fs := fs', targets := ↑(here'.map fun p => (p, (c.fs.pc : Int))) + c.targets } [] held looping ∧
      Rewired here' c.fs { fs' with jpc := c.fs.jpc } := by
  cases list.unique acc.jpc Nat.cast_injective cast_ne_noJump
  have patched : ∃ fs₁, Code.patchlistaux c.fs.jpc c.fs.pc noReg c.fs.pc c.fs = .ok () fs₁ ∧ fs' = { fs₁ with jpc := noJump } := by
    obtain ⟨fs₀, _, got, ran⟩ := bind_returned.1 ran
    obtain ⟨rfl, rfl⟩ := get_returned.1 got
    obtain ⟨_, fs₁, ran, after⟩ := bind_returned.1 ran
    exact ⟨fs₁, ran, modify_returned.1 after⟩
  obtain ⟨fs₁, ran', rfl⟩ := patched
  have walkable : Walkable c.fs ↑here := acc.walkable.mono (Multiset.le_add_right _ _)
  obtain ⟨rest, -, -, rewired, targets⟩ := patchlistaux_patches (AllThreaded.cons list .zero) list (by simpa using walkable) ran'
  obtain ⟨jmp, isLoop, -⟩ := acc.rewired rewired
  have apart := acc.apart_of_here
  have pending : ↑here + ((held + looping) + c.targets.map Prod.fst) = c.jumps := by
    rw [← acc.once]
    abel
  have loops := acc.keepsLoops rewired fun p member => apart p (by simp [member])
  have kept : Rewired here c.fs { fs₁ with jpc := c.fs.jpc } := by
    rw [← rewired.jpc]
    exact rewired
  refine ⟨⟨.nil, ?_, loops, jmp, isLoop, ?_, ?_⟩, kept⟩
  · show AreLists fs₁ (fs₁.breaklists + c.live) held
    rw [FuncState.breaklists, rewired.bl]
    exact acc.keepsLists rewired fun p member => apart p (by simp [member])
  · rw [← acc.once, Multiset.map_add, Multiset.map_coe, List.map_map]
    simp only [Function.comp_def, List.map_id', Multiset.coe_nil]
    abel
  · refine (acc.given rewired pending fun p member => ?_).withJpc noJump
    rw [targets p member, destination, ite_self]

theorem breakstat (acc : c.Accounted here held looping) {n : Nat} {b : BlockCnt} {j breaklist : Int} {live : Multiset Int}
    (isBlock : c.fs.bl[n]? = some b) (isHeld : c.live = j ::ₘ live) (ran : Code.concat b.breaklist j c.fs = .ok breaklist fs') :
    Accounted { c with fs := { fs' with bl := fs'.bl.modify n fun b => { b with breaklist } }, live } here held looping ∧
      ∃ ps, Rewired ps c.fs fs' := by
  obtain ⟨heads, before, after⟩ := breaklists_modify isBlock
  have lists : AreLists c.fs (b.breaklist ::ₘ j ::ₘ (heads + live)) held := by
    have same : b.breaklist ::ₘ j ::ₘ (heads + live) = c.fs.breaklists + c.live := by
      rw [FuncState.breaklists, before, isHeld, Multiset.cons_add, Multiset.add_cons]
    rw [same]
    exact acc.lists
  obtain ⟨lists, ps, among, rewired⟩ := concat_merges lists acc.walkable_held ran
  obtain ⟨jmp, isLoop, jumps⟩ := acc.rewired rewired
  have apart := acc.apart_of_le_held among
  have loops := acc.keepsLoops rewired fun p member => apart p (by simp [member])
  have jumps := jumps fun p member => apart p (Multiset.mem_add.2 (.inr (Multiset.mem_add.2 (.inr member))))
  refine ⟨⟨?_, ?_, loops, jmp, isLoop, acc.once, jumps.withBl _⟩, ps, rewired⟩
  · show IsList fs' fs'.jpc here
    rw [rewired.jpc]
    exact acc.keepsJpc rewired fun p member => apart p (by simp [member])
  · show AreLists fs' (↑((fs'.bl.modify n fun b => { b with breaklist }).map BlockCnt.breaklist) + live) held
    rw [rewired.bl, after, Multiset.cons_add]
    exact lists

/-- The instruction that is removed is no jump. -/
theorem removenot (acc : c.Accounted here held looping) (isNot : opcode? (c.fs.code (c.fs.pc - 1)) = some .not) :
    Accounted { c with fs := { c.fs with pc := c.fs.pc - 1 } } here held looping := by
  refine ⟨acc.jpc, acc.lists, acc.loops, acc.jmp, acc.isLoop, acc.once, acc.jumps.nodup, fun p member => ?_,
    fun p below => acc.jumps.all p (by simp only at below; omega), acc.jumps.target⟩
  obtain ⟨below, isJump⟩ := acc.jumps.isJump p member
  refine ⟨?_, isJump⟩
  have other : p ≠ c.fs.pc - 1 := by
    rintro rfl
    simp [IsJump, isNot] at isJump
  show p < c.fs.pc - 1
  omega

end Config.Accounted

/-! ## Runs -/

/-- Every step keeps the account of the jumps. -/
theorem Step.inv {c c' : Config N} (step : Step c c') (inv : c.Inv) : c'.Inv := by
  obtain ⟨here, held, looping, acc⟩ := inv
  cases step with
  | mild mild => exact ⟨_, _, _, acc.mild mild⟩
  | append _ plain => exact ⟨_, _, _, acc.append plain⟩
  | count _ => exact ⟨_, _, _, acc.count⟩
  | jump _ => exact ⟨_, _, _, acc.jump⟩
  | loop _ small isLoop => exact ⟨_, _, _, acc.loop small isLoop⟩
  | dischargejpc list ran => exact ⟨_, _, _, (acc.dischargejpc list ran).1⟩
  | hold list jmp =>
    cases list.unique acc.jpc Nat.cast_injective cast_ne_noJump
    exact ⟨_, _, _, acc.hold jmp⟩
  | concat held ran => exact ⟨_, _, _, (acc.concat held ran).1⟩
  | tohere held ran =>
    obtain ⟨_, _, -, acc, -⟩ := acc.tohere held ran
    exact ⟨_, _, _, acc⟩
  | loophere held ran =>
    obtain ⟨_, _, acc, -⟩ := acc.loophere held ran
    exact ⟨_, _, _, acc⟩
  | patchlistaux held list ran =>
    obtain ⟨_, acc, -⟩ := acc.patchlistaux held list ran
    exact ⟨_, _, _, acc⟩
  | patchloop held list ran =>
    obtain ⟨_, acc, -⟩ := acc.patchloop held list ran
    exact ⟨_, _, _, acc⟩
  | @enterblock b isNew =>
    refine ⟨_, _, _, acc.jpc, ?_, acc.loops, acc.jmp, acc.isLoop, acc.once, acc.jumps.withBl _⟩
    show AreLists c.fs (b.breaklist ::ₘ c.fs.breaklists + c.live) held
    rw [isNew, Multiset.cons_add]
    exact areLists_noJump.2 acc.lists
  | @leaveblock b previous innermost =>
    refine ⟨_, _, _, acc.jpc, ?_, acc.loops, acc.jmp, acc.isLoop, acc.once, acc.jumps.withBl _⟩
    have same : ↑(previous.map BlockCnt.breaklist) + b.breaklist ::ₘ c.live = c.fs.breaklists + c.live := by
      rw [FuncState.breaklists, innermost, List.map_cons, ← Multiset.cons_coe, Multiset.cons_add, Multiset.add_cons]
    show AreLists c.fs (↑(previous.map BlockCnt.breaklist) + b.breaklist ::ₘ c.live) held
    rw [same]
    exact acc.lists
  | breakstat isBlock held ran => exact ⟨_, _, _, (acc.breakstat isBlock held ran).1⟩
  | removenot _ isNot => exact ⟨_, _, _, acc.removenot isNot⟩
  | none =>
    refine ⟨_, _, _, acc.jpc, ?_, acc.loops, acc.jmp, acc.isLoop, acc.once, acc.jumps⟩
    show AreLists c.fs (c.fs.breaklists + noJump ::ₘ c.live) held
    rw [Multiset.add_cons]
    exact areLists_noJump.2 acc.lists
  | @drop live isHeld =>
    refine ⟨_, _, _, acc.jpc, ?_, acc.loops, acc.jmp, acc.isLoop, acc.once, acc.jumps⟩
    have lists := acc.lists
    rw [isHeld, Multiset.add_cons] at lists
    exact areLists_noJump.1 lists

/-- In every configuration on the way of a function the jumps are accounted for. -/
theorem Reachable.inv {c : Config N} (reachable : Reachable c) : c.Inv := by
  obtain ⟨address, steps⟩ := reachable
  induction steps with
  | refl => exact ⟨[], 0, 0, .nil, .zero, .zero, by simp, by simp, by simp, ⟨by simp, by simp, by simp [Compiler.newFuncState], by simp⟩⟩
  | tail _ step inductionHypothesis => exact step.inv inductionHypothesis

/-- Where a pending list can begin. -/
def Config.pending (c : Config N) : Multiset Int := c.fs.jpc ::ₘ (c.fs.breaklists + c.live + c.loops)

/-- The pending lists all together. -/
theorem Config.Accounted.pending {c : Config N} {here : List Nat} {held looping : Multiset Nat} (acc : c.Accounted here held looping) :
    AreLists c.fs c.pending (↑here + (held + looping)) :=
  AllThreaded.cons acc.jpc (acc.lists.add acc.loops)

/-- When no list is pending, every jump has been given a target, each of them once. -/
theorem Config.Accounted.all_patched {c : Config N} {here : List Nat} {held looping : Multiset Nat} (acc : c.Accounted here held looping)
    (none : ∀ l ∈ c.pending, l = noJump) : c.targets.map Prod.fst = c.jumps := by
  have unused := acc.pending.of_null cast_ne_noJump none
  obtain ⟨noHere, noHeld, noLooping⟩ : (↑here : Multiset Nat) = 0 ∧ held = 0 ∧ looping = 0 := by
    simpa [add_eq_zero] using unused
  have once := acc.once
  rwa [noHere, noHeld, noLooping, zero_add, zero_add, zero_add] at once

theorem Config.Inv.isList {c : Config N} {l : Int} (inv : c.Inv) (member : l ∈ c.pending) :
    ∃ cells : List Nat, IsList c.fs l cells ∧ Walkable c.fs ↑cells := by
  obtain ⟨here, held, looping, acc⟩ := inv
  obtain ⟨heads, isCons⟩ := Multiset.exists_cons_of_mem member
  have lists := acc.pending
  rw [isCons] at lists
  obtain ⟨cells, rest, list, -, isAll⟩ := lists.of_cons
  refine ⟨cells, list, acc.walkable.mono ?_⟩
  rw [← add_assoc held, ← add_assoc, isAll]
  exact (Multiset.le_add_right _ _).trans (Multiset.le_add_right _ _)

/-- The four walks of `gcode.c` along pending lists come to their ends. -/
structure Config.WalksEnd (c : Config N) : Prop where
  concat : ∀ l ∈ c.pending, ∀ l2 fs', Code.concat l l2 c.fs ≠ .error .outOfFuel fs'
  needvalue : ∀ l ∈ c.pending, ∃ b, needvalue l c.fs = .ok b c.fs
  removevalues : ∀ l ∈ c.pending, ∃ fs', removevalues l c.fs = .ok () fs'
  patchlistaux : ∀ l ∈ c.pending, ∀ vtarget reg dtarget fs', patchlistaux l vtarget reg dtarget c.fs ≠ .error .outOfFuel fs'

theorem needvalue_runs {list : Int} {cells : List Nat} (isList : IsList fs list cells) (walkable : Walkable fs ↑cells) :
    ∃ b, needvalue list fs = .ok b fs := by
  obtain ⟨b, ended⟩ := needValue_ends isList (Nat.lt_succ_of_le walkable.length_le)
  refine ⟨b, ?_⟩
  simp only [needvalue, bind, EStateM.bind, get, getThe, MonadStateOf.get, EStateM.get, listFuel, ended]
  rfl

theorem removevalues_runs {list : Int} {cells : List Nat} (isList : IsList fs list cells) (walkable : Walkable fs ↑cells) :
    ∃ fs', removevalues list fs = .ok () fs' ∧ Rewired [] fs fs' :=
  removevaluesLoop_runs isList (fun p member => (walkable.jumps p (Multiset.mem_coe.2 member)).2)
    (Nat.lt_succ_of_le walkable.length_le)

/-- The walk of `gafqK_concat` ends, whatever is put behind the list. -/
theorem concat_ends {l1 l2 : Int} {cells : List Nat} (isList : IsList fs l1 cells) (walkable : Walkable fs ↑cells) :
    ∀ fs', concat l1 l2 fs ≠ .error .outOfFuel fs' := by
  intro fs' failed
  by_cases none2 : l2 = noJump
  · simp only [concat, if_pos none2] at failed
    cases failed
  by_cases none1 : l1 = noJump
  · simp only [concat, if_neg none2, if_pos none1] at failed
    cases failed
  obtain ⟨front, last, rfl⟩ := isList.exists_last none1
  have found : lastjump fs (listFuel fs) l1 = some (last : Int) := by
    have short := walkable.length_le
    refine lastjump_eq isList ?_
    simp only [listFuel, List.length_append, List.length_cons, List.length_nil] at short ⊢
    omega
  simp only [concat, if_neg none2, if_neg none1, bind, EStateM.bind, get, getThe, MonadStateOf.get, EStateM.get, found, fixjump_eq] at failed
  by_cases long : (l2 - (last + 1)).natAbs > maxArgSBx
  · simp only [if_pos long] at failed
    cases failed
  · simp only [if_neg long] at failed
    cases failed

/-- The walk of `patchlistaux` ends, or comes to a jump that is too long. -/
theorem Config.Inv.patchlistaux_error {c : Config N} {l vtarget reg dtarget : Int} {e : GenError} (inv : c.Inv) (member : l ∈ c.pending)
    (failed : patchlistaux l vtarget reg dtarget c.fs = .error e fs') :
    e = .syntaxerror (Lexer.bytes "control structure too long") := by
  obtain ⟨cells, list, walkable⟩ := inv.isList member
  obtain ⟨_, ran, -⟩ | ⟨_, ran⟩ := @patchlistauxLoop_patches N c.fs l vtarget reg dtarget cells (listFuel c.fs) list
    (Multiset.coe_nodup.1 walkable.nodup) (fun p member => (walkable.jumps p (Multiset.mem_coe.2 member)).2)
    (Nat.lt_succ_of_le walkable.length_le)
  · have same : (Code.patchlistaux l vtarget reg dtarget c.fs : EStateM.Result _ _ _) = _ := ran
    rw [failed] at same
    cases same
  · have same : (Code.patchlistaux l vtarget reg dtarget c.fs : EStateM.Result _ _ _) = _ := ran
    rw [failed] at same
    cases same
    rfl

theorem Config.Inv.walksEnd {c : Config N} (inv : c.Inv) : c.WalksEnd where
  concat l member l2 fs' := by
    obtain ⟨cells, list, walkable⟩ := inv.isList member
    exact concat_ends list walkable fs'
  needvalue l member := by
    obtain ⟨cells, list, walkable⟩ := inv.isList member
    exact needvalue_runs list walkable
  removevalues l member := by
    obtain ⟨cells, list, walkable⟩ := inv.isList member
    obtain ⟨fs', ran, -⟩ := removevalues_runs list walkable
    exact ⟨fs', ran⟩
  patchlistaux l member vtarget reg dtarget fs' failed := by
    have := inv.patchlistaux_error member failed
    cases this

end Gafq.Code
