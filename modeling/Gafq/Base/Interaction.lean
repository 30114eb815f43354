import Mathlib

/-! # Programs that ask their environment

A program asks one question after another and goes on with the answers.  Nothing is known about the
answers: two equal programs ask the same questions in the same order, whatever they are told.
-/

namespace Gafq.Base

inductive Interaction (Q A ε α : Type) where
  | done (a : α)
  | fail (e : ε)
  | ask (q : Q) (next : A → Interaction Q A ε α)

variable {Q A ε α β σ : Type}

namespace Interaction

protected def bind : Interaction Q A ε α → (α → Interaction Q A ε β) → Interaction Q A ε β
  | done a, f => f a
  | fail e, _ => fail e
  | ask q next, f => ask q fun answer => (next answer).bind f

instance : Monad (Interaction Q A ε) where
  pure := done
  bind := Interaction.bind

/-- Ask and return the answer. -/
def request (q : Q) : Interaction Q A ε A := ask q done

@[simp] theorem pure_eq (a : α) : (pure a : Interaction Q A ε α) = done a := rfl

@[simp] theorem done_bind (a : α) (f : α → Interaction Q A ε β) : (done a >>= f) = f a := rfl

@[simp] theorem fail_bind (e : ε) (f : α → Interaction Q A ε β) : (fail e >>= f) = fail e := rfl

@[simp] theorem ask_bind (q : Q) (next : A → Interaction Q A ε α) (f : α → Interaction Q A ε β) :
    (ask q next >>= f) = ask q fun answer => next answer >>= f := rfl

@[simp] theorem request_bind (q : Q) (f : A → Interaction Q A ε β) : (request q >>= f) = ask q f := rfl

theorem bind_done (m : Interaction Q A ε α) : m >>= done = m := by
  induction m with
  | done a => rfl
  | fail e => rfl
  | ask q next inductionHypothesis => exact congrArg (ask q) (funext inductionHypothesis)

theorem bind_bind {γ : Type} (m : Interaction Q A ε α) (f : α → Interaction Q A ε β) (g : β → Interaction Q A ε γ) :
    (m >>= f) >>= g = m >>= fun a => f a >>= g := by
  induction m with
  | done a => rfl
  | fail e => rfl
  | ask q next inductionHypothesis => exact congrArg (ask q) (funext inductionHypothesis)

instance : LawfulMonad (Interaction Q A ε) := LawfulMonad.mk' _ bind_done (fun _ _ => rfl) bind_bind

/-! ## Runs -/

/-- The result when the answer depends on nothing but the question. -/
def eval (answer : Q → A) : Interaction Q A ε α → Except ε α
  | done a => .ok a
  | fail e => .error e
  | ask q next => (next (answer q)).eval answer

theorem eval_bind (answer : Q → A) (m : Interaction Q A ε α) (f : α → Interaction Q A ε β) :
    (m >>= f).eval answer = m.eval answer >>= fun a => (f a).eval answer := by
  induction m with
  | done a => rfl
  | fail e => rfl
  | ask q next inductionHypothesis => exact inductionHypothesis (answer q)

theorem eval_bind_ok {answer : Q → A} {m : Interaction Q A ε α} {f : α → Interaction Q A ε β} {a : α}
    (returned : m.eval answer = .ok a) : (m >>= f).eval answer = (f a).eval answer := by
  rw [eval_bind, returned]
  rfl

/-- The result, and the questions with their answers, when the answers are given one after another. -/
def run (answers : Nat → A) : Nat → Interaction Q A ε α → Except ε α × List (Q × A)
  | _, done a => (.ok a, [])
  | _, fail e => (.error e, [])
  | n, ask q next =>
    let (r, asked) := (next (answers n)).run answers (n + 1)
    (r, (q, answers n) :: asked)

theorem run_answered {m : Interaction Q A ε α} {answers : Nat → A} {n : Nat} {entry : Q × A} (asked : entry ∈ (m.run answers n).2) :
    ∃ k, entry.2 = answers k := by
  induction m generalizing n with
  | done a => cases asked
  | fail e => cases asked
  | ask q next inductionHypothesis =>
    obtain rfl | later := List.mem_cons.mp asked
    · exact ⟨n, rfl⟩
    · exact inductionHypothesis (answers n) later

/-- Whatever the answers are, the questions with their answers and the result satisfy `post`. -/
def Along : (post : List (Q × A) → Except ε α → Prop) → Interaction Q A ε α → Prop
  | post, done a => post [] (.ok a)
  | post, fail e => post [] (.error e)
  | post, ask q next => ∀ answer, (next answer).Along fun asked r => post ((q, answer) :: asked) r

namespace Along

variable {post post' : List (Q × A) → Except ε α → Prop} {m : Interaction Q A ε α}

theorem weaken (along : m.Along post) (after : ∀ asked r, post asked r → post' asked r) : m.Along post' := by
  induction m generalizing post post' with
  | done a => exact after _ _ along
  | fail e => exact after _ _ along
  | ask q next inductionHypothesis =>
    exact fun answer => inductionHypothesis answer (along answer) fun asked r holds => after _ r holds

theorem bind {post' : List (Q × A) → Except ε β → Prop} {f : α → Interaction Q A ε β} (first : m.Along post)
    (rest : ∀ asked a, post asked (.ok a) → (f a).Along fun asked' r => post' (asked ++ asked') r)
    (failed : ∀ asked e, post asked (.error e) → post' asked (.error e)) : (m >>= f).Along post' := by
  induction m generalizing post post' with
  | done a => exact rest [] a first
  | fail e => exact failed [] e first
  | ask q next inductionHypothesis =>
    intro answer
    exact inductionHypothesis answer (first answer) (fun asked a holds => rest _ a holds) fun asked e holds => failed _ e holds

theorem run (along : m.Along post) (answers : Nat → A) (n : Nat) : post (m.run answers n).2 (m.run answers n).1 := by
  induction m generalizing post n with
  | done a => exact along
  | fail e => exact along
  | ask q next inductionHypothesis => exact inductionHypothesis (answers n) (along (answers n)) (n + 1)

end Along

/-- The second program does what the first does, until the first is cut off. -/
inductive Extends (cut : ε → Prop) : Interaction Q A ε α → Interaction Q A ε α → Prop
  | cut {e : ε} {m : Interaction Q A ε α} (isCut : cut e) : Extends cut (fail e) m
  | done (a : α) : Extends cut (done a) (done a)
  | fail (e : ε) : Extends cut (fail e) (fail e)
  | ask (q : Q) {next next' : A → Interaction Q A ε α} (goesOn : ∀ answer, Extends cut (next answer) (next' answer)) :
      Extends cut (ask q next) (ask q next')

namespace Extends

variable {cut : ε → Prop} {m m' : Interaction Q A ε α}

theorem refl (m : Interaction Q A ε α) : Extends cut m m := by
  induction m with
  | done a => exact .done a
  | fail e => exact .fail e
  | ask q next inductionHypothesis => exact .ask q inductionHypothesis

theorem bind {f f' : α → Interaction Q A ε β} (first : Extends cut m m') (rest : ∀ a, Extends cut (f a) (f' a)) :
    Extends cut (m >>= f) (m' >>= f') := by
  induction first with
  | cut isCut => exact .cut isCut
  | done a => exact rest a
  | fail e => exact .fail e
  | ask q goesOn inductionHypothesis => exact .ask q inductionHypothesis

/-- A run that is not cut off stays the same, and one that is begins the same. -/
theorem run (longer : Extends cut m m') (answers : Nat → A) (n : Nat) :
    m'.run answers n = m.run answers n ∨
      (∃ e, cut e ∧ (m.run answers n).1 = .error e) ∧ (m.run answers n).2 <+: (m'.run answers n).2 := by
  induction longer generalizing n with
  | cut isCut => exact .inr ⟨⟨_, isCut, rfl⟩, List.nil_prefix⟩
  | done a => exact .inl rfl
  | fail e => exact .inl rfl
  | ask q goesOn inductionHypothesis =>
    obtain same | ⟨⟨e, isCut, ended⟩, begins⟩ := inductionHypothesis (answers n) (n + 1)
    · left
      simp only [Interaction.run, same]
    · right
      exact ⟨⟨e, isCut, ended⟩, List.cons_prefix_cons.2 ⟨rfl, begins⟩⟩

end Extends

end Interaction

end Gafq.Base
