import Mathlib

/-! # Loops

A loop is given by what one iteration does: it goes on with another state, or it ends with a result.
`loop` runs so many iterations at most.  A measure that every iteration makes smaller bounds how many
are needed.
-/

namespace Gafq.Base

variable {σ ρ : Type}

def loop (step : σ → σ ⊕ ρ) : Nat → σ → Option ρ
  | 0, _ => none
  | fuel + 1, s =>
    match step s with
    | .inl s' => loop step fuel s'
    | .inr r => some r

/-- The loop ends with a result. -/
def Ends (step : σ → σ ⊕ ρ) (s : σ) (r : ρ) : Prop := ∃ fuel, loop step fuel s = some r

/-- What an iteration does that starts with the measure `n`. -/
def Advances (invariant : σ → Prop) (measure : σ → Nat) (post : ρ → Prop) (n : Nat) : σ ⊕ ρ → Prop
  | .inl s => invariant s ∧ measure s < n
  | .inr r => post r

namespace Ends

variable {step : σ → σ ⊕ ρ} {s s' : σ} {r r' : ρ}

theorem last (stepped : step s = .inr r) : Ends step s r := ⟨1, by rw [loop, stepped]⟩

theorem next (stepped : step s = .inl s') (ends : Ends step s' r) : Ends step s r := by
  obtain ⟨fuel, ran⟩ := ends
  exact ⟨fuel + 1, by rw [loop, stepped]; exact ran⟩

/-- A loop has one result. -/
theorem unique (first : Ends step s r) (second : Ends step s r') : r = r' := by
  obtain ⟨fuel, ran⟩ := first
  obtain ⟨fuel', ran'⟩ := second
  induction fuel generalizing fuel' s with
  | zero => cases ran
  | succ fuel inductionHypothesis =>
    cases fuel' with
    | zero => cases ran'
    | succ fuel' =>
      rw [loop] at ran ran'
      cases stepped : step s with
      | inl s' =>
        rw [stepped] at ran ran'
        exact inductionHypothesis ran fuel' ran'
      | inr r =>
        rw [stepped] at ran ran'
        cases ran
        cases ran'
        rfl

/-- An invariant that every iteration keeps while it makes the measure smaller. -/
theorem of_invariant {invariant : σ → Prop} {post : ρ → Prop} {measure : σ → Nat}
    (iteration : ∀ s, invariant s → Advances invariant measure post (measure s) (step s)) (initially : invariant s) :
    ∃ r, Ends step s r ∧ post r := by
  induction size : measure s using Nat.strongRecOn generalizing s with
  | _ n inductionHypothesis =>
    have kept := iteration s initially
    cases stepped : step s with
    | inl s' =>
      rw [stepped] at kept
      obtain ⟨r, ends, holds⟩ := inductionHypothesis (measure s') (size ▸ kept.2) kept.1 rfl
      exact ⟨r, .next stepped ends, holds⟩
    | inr r =>
      rw [stepped] at kept
      exact ⟨r, .last stepped, kept⟩

end Ends

end Gafq.Base
