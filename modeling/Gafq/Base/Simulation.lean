import Mathlib

/-! # Labelled runs and simulations

A system is a relation between states and labels.  A simulation matches each step of one system by a run of
another one; a run is then matched by a run.
-/

namespace Gafq.Base

variable {S T L M : Type}

/-- A run, with the labels of its steps. -/
inductive LabelledRun (step : S → L → S → Prop) : S → List L → S → Prop
  | refl (s : S) : LabelledRun step s [] s
  | head {s s' s'' : S} {l : L} {ls : List L} (first : step s l s') (rest : LabelledRun step s' ls s'') :
    LabelledRun step s (l :: ls) s''

namespace LabelledRun

variable {step : S → L → S → Prop} {s s' s'' : S} {l : L} {ls ls' : List L}

theorem single (first : step s l s') : LabelledRun step s [l] s' := .head first (.refl _)

theorem append (first : LabelledRun step s ls s') (second : LabelledRun step s' ls' s'') :
    LabelledRun step s (ls ++ ls') s'' := by
  induction first with
  | refl => exact second
  | head first _ inductionHypothesis => exact .head first (inductionHypothesis second)

/-- What a step keeps, a run keeps. -/
theorem invariant {P : S → Prop} (keeps : ∀ s l s', step s l s' → P s → P s') (run : LabelledRun step s ls s')
    (holds : P s) : P s' := by
  induction run with
  | refl => exact holds
  | head first _ inductionHypothesis => exact inductionHypothesis (keeps _ _ _ first holds)

/-- Each step is matched by one with the same label. -/
theorem simulate {step' : T → L → T → Prop} {R : S → T → Prop} {t : T}
    (matched : ∀ s l s' t, step s l s' → R s t → ∃ t', step' t l t' ∧ R s' t')
    (run : LabelledRun step s ls s') (related : R s t) : ∃ t', LabelledRun step' t ls t' ∧ R s' t' := by
  induction run generalizing t with
  | refl => exact ⟨t, .refl t, related⟩
  | head first _ inductionHypothesis =>
    obtain ⟨t₁, step₁, related₁⟩ := matched _ _ _ t first related
    obtain ⟨t', rest, related'⟩ := inductionHypothesis related₁
    exact ⟨t', .head step₁ rest, related'⟩

/-- Each step is matched by a run, whose labels are what `unrolled` makes of its own. -/
theorem stutter {step' : T → M → T → Prop} {R : S → T → Prop} {unrolled : L → List M → Prop} {t : T}
    (matched : ∀ s l s' t, step s l s' → R s t → ∃ ms t', unrolled l ms ∧ LabelledRun step' t ms t' ∧ R s' t')
    (run : LabelledRun step s ls s') (related : R s t) :
    ∃ mss t', List.Forall₂ unrolled ls mss ∧ LabelledRun step' t mss.flatten t' ∧ R s' t' := by
  induction run generalizing t with
  | refl => exact ⟨[], t, .nil, .refl t, related⟩
  | head first _ inductionHypothesis =>
    obtain ⟨ms, t₁, unrolled₁, run₁, related₁⟩ := matched _ _ _ t first related
    obtain ⟨mss, t', unrolled', rest, related'⟩ := inductionHypothesis related₁
    exact ⟨ms :: mss, t', .cons unrolled₁ unrolled', run₁.append rest, related'⟩

end LabelledRun

end Gafq.Base
