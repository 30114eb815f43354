import Gafq.Base.Ensures
import Gafq.Base.Returned
import Gafq.Verified.JumpWalks

/-! # Code that keeps its operations

Most functions of `gcode.c` that put no instruction into the code change operands and offsets only: what
depends on the operations alone holds after them as before.
-/

namespace Gafq.Code

open Gafq.Base

variable {N : Type} {fs fs' : FuncState N}

/-- No operation is added or removed. -/
structure Steady (fs fs' : FuncState N) : Prop where
  pc : fs'.pc = fs.pc
  code : ∀ p, SameOp (fs.code p) (fs'.code p)

theorem Steady.refl (fs : FuncState N) : Steady fs fs := ⟨rfl, fun _ => .inl rfl⟩

theorem Steady.trans {fs'' : FuncState N} (first : Steady fs fs') (second : Steady fs' fs'') : Steady fs fs'' :=
  ⟨second.pc.trans first.pc, fun p => (first.code p).trans (second.code p)⟩

theorem Steady.setCode {p : Nat} {i : Instruction} (same : SameOp (fs.code p) i) :
    Steady fs { fs with code := Function.update fs.code p i } := by
  refine ⟨rfl, fun q => ?_⟩
  by_cases here : q = p
  · subst here
    simpa only [Function.update_self] using same
  · simp only [Function.update_of_ne here]
    exact .inl rfl

/-- A computation that adds and removes no operation. -/
def Keeps {α : Type} (m : CodeM N α) : Prop := ∀ fs a fs', m fs = .ok a fs' → Steady fs fs'

/-- What depends on the operations alone goes through. -/
theorem Keeps.carry {α : Type} {m : CodeM N α} {pre : FuncState N → Prop} {post : α → FuncState N → Prop} {P error : FuncState N → Prop}
    (keeps : Keeps m) (stable : ∀ fs fs', Steady fs fs' → P fs → P fs') (valid : Ensures pre m post error) :
    Ensures (fun fs => pre fs ∧ P fs) m (fun a fs => post a fs ∧ P fs) error := by
  rintro fs ⟨holds, known⟩
  have reached := valid fs holds
  cases ran : m fs with
  | ok a fs' =>
    rw [ran] at reached
    exact ⟨reached, stable fs fs' (keeps fs a fs' ran) known⟩
  | error _ fs' =>
    rw [ran] at reached
    exact reached

theorem Keeps.bind {α β : Type} {m : CodeM N α} {f : α → CodeM N β} (first : Keeps m) (rest : ∀ a, Keeps (f a)) : Keeps (m >>= f) := by
  intro fs b fs' ran
  obtain ⟨a, fs₁, ran, ran'⟩ := bind_returned.1 ran
  exact (first fs a fs₁ ran).trans (rest a fs₁ b fs' ran')

theorem Keeps.pure {α : Type} {a : α} : Keeps (Pure.pure a : CodeM N α) := by
  intro fs b fs' ran
  rw [(pure_returned.1 ran).2]
  exact .refl fs

theorem Keeps.throw {α : Type} {error : GenError} : Keeps (MonadExcept.throw error : CodeM N α) :=
  fun _ _ _ ran => absurd ran (by simp [throw_returned])

theorem Keeps.modify {f : FuncState N → FuncState N} (steady : ∀ fs, Steady fs (f fs)) : Keeps (modify f : CodeM N Unit) := by
  intro fs _ fs' ran
  rw [modify_returned.1 ran]
  exact steady fs

theorem Keeps.at_state {β : Type} {f : FuncState N → CodeM N β} (rest : ∀ fs b fs', f fs fs = .ok b fs' → Steady fs fs') :
    Keeps (MonadState.get >>= f) :=
  fun fs b fs' ran => rest fs b fs' ran

theorem Keeps.get_bind {β : Type} {f : FuncState N → CodeM N β} (rest : ∀ fs, Keeps (f fs)) : Keeps (MonadState.get >>= f) :=
  .at_state fun fs => rest fs fs

theorem Keeps.ite {α : Type} {c : Prop} [Decidable c] {m m' : CodeM N α} (whenTrue : Keeps m) (whenFalse : Keeps m') :
    Keeps (if c then m else m') := by
  split
  · exact whenTrue
  · exact whenFalse

theorem freereg_keeps {reg : Int} : Keeps (freereg reg : CodeM N Unit) :=
  .get_bind fun _ => .ite (.modify fun _ => ⟨rfl, fun _ => .inl rfl⟩) .pure

theorem reserveregs_keeps {n : Int} : Keeps (reserveregs n : CodeM N Unit) := by
  have checked : Keeps (checkstack n : CodeM N Unit) := by
    refine .get_bind fun _ => .ite (.ite ?_ ?_) .pure
    · exact Keeps.throw.bind fun _ => .modify fun _ => ⟨rfl, fun _ => .inl rfl⟩
    · exact .modify fun _ => ⟨rfl, fun _ => .inl rfl⟩
  exact checked.bind fun _ => .modify fun _ => ⟨rfl, fun _ => .inl rfl⟩

theorem fixjump_keeps {pc dest : Int} : Keeps (fixjump pc dest : CodeM N Unit) := by
  refine .at_state fun fs _ fs' ran => ?_
  have patched : fs' = { fs with code := Function.update fs.code pc.toNat (setArgSBx (fs.code pc.toNat) (dest - (pc + 1))) } := by
    by_cases long : (dest - (pc + 1)).natAbs > maxArgSBx
    · simp only [if_pos long, bind_returned, throw_returned] at ran
      obtain ⟨_, _, ⟨⟩, -⟩ := ran
    · simp only [if_neg long] at ran
      exact modify_returned.1 ran
  rw [patched]
  exact .setCode (.inl (opcode?_setArgSBx ..))

theorem concat_keeps {l1 l2 : Int} : Keeps (concat l1 l2 : CodeM N Int) := by
  refine .ite .pure (.ite .pure (.get_bind fun fs => ?_))
  split
  · exact .throw
  · exact .bind fixjump_keeps fun _ => .pure

theorem patchtestreg_keeps {node reg : Int} : Keeps (patchtestreg node reg : CodeM N Bool) := by
  refine .at_state fun fs b fs' ran => ?_
  by_cases testset : opcode? (fs.code (getjumpcontrol fs node)) = some .testset
  · have free := free_of_opcode testset (by decide)
    simp only [ne_eq, testset, not_true_eq_false, if_false] at ran
    split at ran
    · obtain ⟨_, _, changed, ran⟩ := bind_returned.1 ran
      rw [(pure_returned.1 ran).2, modify_returned.1 changed]
      exact .setCode (.inl (opcode?_setArgA ..))
    · obtain ⟨_, _, changed, ran⟩ := bind_returned.1 ran
      rw [(pure_returned.1 ran).2, modify_returned.1 changed]
      exact .setCode (.inr ⟨free, free_of_opcode (opcode?_instrABC ..) (by decide)⟩)
  · simp only [ne_eq, testset, not_false_eq_true, if_true] at ran
    rw [(pure_returned.1 ran).2]
    exact .refl _

theorem removevaluesLoop_keeps (fuel : Nat) (list : Int) : Keeps (removevaluesLoop fuel list : CodeM N Unit) := by
  induction fuel generalizing list with
  | zero => exact .throw
  | succ fuel inductionHypothesis =>
    exact .ite .pure (.bind patchtestreg_keeps fun _ => .get_bind fun _ => inductionHypothesis _)

theorem removevalues_keeps {list : Int} : Keeps (removevalues list : CodeM N Unit) := .get_bind fun _ => removevaluesLoop_keeps _ _

theorem patchlistauxLoop_keeps (vtarget reg dtarget : Int) (fuel : Nat) (list : Int) :
    Keeps (patchlistauxLoop vtarget reg dtarget fuel list : CodeM N Unit) := by
  induction fuel generalizing list with
  | zero => exact .throw
  | succ fuel inductionHypothesis =>
    refine .ite .pure (.get_bind fun _ => .bind patchtestreg_keeps fun patched => ?_)
    cases patched
    · exact .bind fixjump_keeps fun _ => inductionHypothesis _
    · exact .bind fixjump_keeps fun _ => inductionHypothesis _

theorem dischargejpc_keeps : Keeps (dischargejpc : CodeM N Unit) := by
  refine .get_bind fun fs => ?_
  have walked : Keeps (patchlistaux fs.jpc fs.pc noReg fs.pc : CodeM N Unit) := .get_bind fun _ => patchlistauxLoop_keeps _ _ _ _ _
  exact walked.bind fun _ => .modify fun _ => ⟨rfl, fun _ => .inl rfl⟩

theorem getlabel_keeps : Keeps (getlabel : CodeM N Nat) := by
  refine .get_bind fun fs => ?_
  have recorded : Keeps (record (.label fs.pc) : CodeM N Unit) := .modify fun _ => ⟨rfl, fun _ => .inl rfl⟩
  exact recorded.bind fun _ => Keeps.bind (.modify fun _ => ⟨rfl, fun _ => .inl rfl⟩) fun _ => .pure

theorem patchtohere_keeps {list : Int} : Keeps (patchtohere list : CodeM N Unit) :=
  .bind getlabel_keeps fun _ => .get_bind fun _ => .bind concat_keeps fun _ => .modify fun _ => ⟨rfl, fun _ => .inl rfl⟩

end Gafq.Code
