import Mathlib

/-! # Programs that read a stream

A program gets one item of a stream after another, and `none` once the stream has ended.  What it does
can be told apart from where the items come from: `run` takes them from a list, and `runFrom` from any
source, which may also refuse to answer.

`Careful` says that a program never gets another item after the end of the stream.  Such a program does
the same on a source as on the list of the items that the source holds.
-/

namespace Gafq.Base

inductive Program (β ε α : Type) where
  | done (a : α)
  | fail (e : ε)
  | get (next : Option β → Program β ε α)

variable {β ε α γ σ : Type}

namespace Program

protected def bind : Program β ε α → (α → Program β ε γ) → Program β ε γ
  | done a, f => f a
  | fail e, _ => fail e
  | get next, f => get fun c => (next c).bind f

instance : Monad (Program β ε) where
  pure := done
  bind := Program.bind

@[simp] theorem pure_eq (a : α) : (pure a : Program β ε α) = done a := rfl

@[simp] theorem done_bind (a : α) (f : α → Program β ε γ) : (done a >>= f) = f a := rfl

@[simp] theorem fail_bind (e : ε) (f : α → Program β ε γ) : (fail e >>= f) = fail e := rfl

@[simp] theorem get_bind (next : Option β → Program β ε α) (f : α → Program β ε γ) :
    (get next >>= f) = get fun c => next c >>= f := rfl

theorem bind_done (m : Program β ε α) : m >>= done = m := by
  induction m with
  | done a => rfl
  | fail e => rfl
  | get next inductionHypothesis => exact congrArg get (funext inductionHypothesis)

theorem bind_bind {δ : Type} (m : Program β ε α) (f : α → Program β ε γ) (g : γ → Program β ε δ) :
    (m >>= f) >>= g = m >>= fun a => f a >>= g := by
  induction m with
  | done a => rfl
  | fail e => rfl
  | get next inductionHypothesis => exact congrArg get (funext inductionHypothesis)

instance : LawfulMonad (Program β ε) := LawfulMonad.mk' _ bind_done (fun _ _ => rfl) bind_bind

/-- The program on a list of items. -/
def run : Program β ε α → List β → Except ε (α × List β)
  | done a, l => .ok (a, l)
  | fail e, _ => .error e
  | get next, [] => (next none).run []
  | get next, b :: l => (next (some b)).run l

theorem run_bind (m : Program β ε α) (f : α → Program β ε γ) (l : List β) :
    (m >>= f).run l = m.run l >>= fun r => (f r.1).run r.2 := by
  induction m generalizing l with
  | done a => rfl
  | fail e => rfl
  | get next inductionHypothesis =>
    cases l with
    | nil => exact inductionHypothesis none []
    | cons b l => exact inductionHypothesis (some b) l

theorem run_bind_ok {m : Program β ε α} {f : α → Program β ε γ} {l rest : List β} {a : α} (ran : m.run l = .ok (a, rest)) :
    (m >>= f).run l = (f a).run rest := by
  rw [run_bind, ran]
  rfl

theorem run_bind_error {m : Program β ε α} {f : α → Program β ε γ} {l : List β} {e : ε} (ran : m.run l = .error e) :
    (m >>= f).run l = .error e := by
  rw [run_bind, ran]
  rfl

theorem run_bind_returned {m : Program β ε α} {f : α → Program β ε γ} {l rest : List β} {b : γ} :
    (m >>= f).run l = .ok (b, rest) ↔ ∃ a middle, m.run l = .ok (a, middle) ∧ (f a).run middle = .ok (b, rest) := by
  rw [run_bind]
  cases ran : m.run l with
  | error e =>
    constructor
    · intro failed
      cases failed
    · rintro ⟨a, middle, ⟨⟩, -⟩
  | ok r =>
    constructor
    · exact fun rest => ⟨r.1, r.2, rfl, rest⟩
    · rintro ⟨a, middle, ⟨⟩, rest⟩
      exact rest

theorem run_done {a b : α} {l rest : List β} : (done a : Program β ε α).run l = .ok (b, rest) ↔ b = a ∧ rest = l := by
  simp [run, eq_comm]

/-! ## What a program returns -/

/-- If the program returns on the list, its result and the rest of the list satisfy `post`. -/
def Yields (m : Program β ε α) (l : List β) (post : α → List β → Prop) : Prop :=
  ∀ a rest, m.run l = .ok (a, rest) → post a rest

namespace Yields

variable {l : List β} {post post' : α → List β → Prop}

theorem done {a : α} (holds : post a l) : (Program.done a : Program β ε α).Yields l post := by
  intro b rest ran
  obtain ⟨rfl, rfl⟩ := run_done.mp ran
  exact holds

theorem fail {e : ε} : (Program.fail e : Program β ε α).Yields l post := nofun

theorem weaken {m : Program β ε α} (yields : m.Yields l post) (after : ∀ a rest, post a rest → post' a rest) :
    m.Yields l post' := fun a rest ran => after a rest (yields a rest ran)

theorem bind {post' : γ → List β → Prop} {m : Program β ε α} {f : α → Program β ε γ} (first : m.Yields l post)
    (next : ∀ a rest, post a rest → (f a).Yields rest post') : (m >>= f).Yields l post' := by
  intro b rest ran
  obtain ⟨a, middle, began, ended⟩ := run_bind_returned.mp ran
  exact next a middle (first a middle began) b rest ended

theorem ite {c : Prop} [Decidable c] {m m' : Program β ε α} (whenTrue : c → m.Yields l post)
    (whenFalse : ¬ c → m'.Yields l post) : (if c then m else m').Yields l post := by
  split
  · next holds => exact whenTrue holds
  · next fails => exact whenFalse fails

end Yields

/-- The program on a source; `none` if the source refuses to answer. -/
def runFrom (getc : σ → Option (Option β × σ)) : Program β ε α → σ → Option (Except ε α × σ)
  | done a, s => some (.ok a, s)
  | fail e, s => some (.error e, s)
  | get next, s =>
    match getc s with
    | none => none
    | some (c, s) => (next c).runFrom getc s

theorem runFrom_keeps {getc : σ → Option (Option β × σ)} {holds : σ → Prop}
    (keeps : ∀ s c s', getc s = some (c, s') → holds s → holds s') {m : Program β ε α} {s s' : σ} {r : Except ε α}
    (ran : m.runFrom getc s = some (r, s')) (initially : holds s) : holds s' := by
  induction m generalizing s with
  | done a =>
    cases ran
    exact initially
  | fail e =>
    cases ran
    exact initially
  | get next inductionHypothesis =>
    rw [runFrom] at ran
    cases got : getc s with
    | none => rw [got] at ran; cases ran
    | some answer =>
      obtain ⟨c, middle⟩ := answer
      rw [got] at ran
      exact inductionHypothesis c ran (keeps s c middle got initially)

/-! ## Programs that stop at the end -/

/-- With `togo` items to get, the end of the stream counted as one, the program gets no item after the end of the
stream; its errors satisfy `error`, and its results `post`. -/
def Careful (error : ε → Prop) (post : Nat → α → Prop) : Program β ε α → Nat → Prop
  | done a, togo => post togo a
  | fail e, _ => error e
  | get _, 0 => False
  | get next, 1 => (next none).Careful error post 0
  | get next, togo + 2 => ∀ b, (next (some b)).Careful error post (togo + 1)

namespace Careful

variable {error : ε → Prop} {post post' : Nat → α → Prop}

theorem weaken {m : Program β ε α} {togo : Nat} (careful : m.Careful error post togo)
    (after : ∀ togo' a, post togo' a → post' togo' a) : m.Careful error post' togo := by
  induction m generalizing togo with
  | done a => exact after togo a careful
  | fail e => exact careful
  | get next inductionHypothesis =>
    match togo, careful with
    | 1, careful => exact inductionHypothesis none careful
    | togo + 2, careful => exact fun b => inductionHypothesis (some b) (careful b)

theorem bind {post' : Nat → γ → Prop} {m : Program β ε α} {f : α → Program β ε γ} {togo : Nat} (first : m.Careful error post togo)
    (rest : ∀ togo' a, post togo' a → (f a).Careful error post' togo') : (m >>= f).Careful error post' togo := by
  induction m generalizing togo with
  | done a => exact rest togo a first
  | fail e => exact first
  | get next inductionHypothesis =>
    match togo, first with
    | 1, first => exact inductionHypothesis none first
    | togo + 2, first => exact fun b => inductionHypothesis (some b) (first b)

theorem ite {c : Prop} [Decidable c] {m m' : Program β ε α} {togo : Nat} (whenTrue : c → m.Careful error post togo)
    (whenFalse : ¬ c → m'.Careful error post togo) : (if c then m else m').Careful error post togo := by
  split
  · next holds => exact whenTrue holds
  · next fails => exact whenFalse fails

/-- What a careful program returns on a list. -/
theorem run {m : Program β ε α} {l : List β} (careful : m.Careful error post (l.length + 1)) :
    match m.run l with
    | .ok (a, rest) => ∃ togo, post togo a ∧ (togo = rest.length + 1 ∨ togo = 0 ∧ rest = [])
    | .error e => error e := by
  suffices general : ∀ (m : Program β ε α) (togo : Nat) (l : List β), (togo = l.length + 1 ∨ togo = 0 ∧ l = []) →
      m.Careful error post togo → match m.run l with
        | .ok (a, rest) => ∃ togo, post togo a ∧ (togo = rest.length + 1 ∨ togo = 0 ∧ rest = [])
        | .error e => error e from general m _ l (.inl rfl) careful
  intro m
  induction m with
  | done a => exact fun togo l left careful => ⟨togo, careful, left⟩
  | fail e => exact fun togo l left careful => careful
  | get next inductionHypothesis =>
    intro togo l left careful
    obtain rfl | ⟨rfl, rfl⟩ := left
    · cases l with
      | nil => exact inductionHypothesis none 0 [] (.inr ⟨rfl, rfl⟩) careful
      | cons b l => exact inductionHypothesis (some b) (l.length + 1) l (.inl rfl) (careful b)
    · exact careful.elim

variable {getc : σ → Option (Option β × σ)}

/-- A careful program leaves a source alone after its end. -/
theorem runFrom_ends {live ended : σ → Prop}
    (answers : ∀ s, live s → ∃ c s', getc s = some (c, s') ∧ (c = none → ended s') ∧ (c ≠ none → live s'))
    {m : Program β ε α} {s : σ} (careful : ∀ togo, m.Careful error post (togo + 1)) (alive : live s) :
    ∃ r s', m.runFrom getc s = some (r, s') ∧ (live s' ∨ ended s') := by
  suffices general : ∀ (m : Program β ε α) (s : σ),
      (live s ∧ (∀ togo, m.Careful error post (togo + 1)) ∨ ended s ∧ m.Careful error post 0) →
      ∃ r s', m.runFrom getc s = some (r, s') ∧ (live s' ∨ ended s') from general m s (.inl ⟨alive, careful⟩)
  intro m
  induction m with
  | done a => exact fun s state => ⟨.ok a, s, rfl, state.imp And.left And.left⟩
  | fail e => exact fun s state => ⟨.error e, s, rfl, state.imp And.left And.left⟩
  | get next inductionHypothesis =>
    intro s state
    obtain ⟨alive, careful⟩ | ⟨-, careful⟩ := state
    · obtain ⟨c, s', got, atEnd, goesOn⟩ := answers s alive
      have state' : live s' ∧ (∀ togo, (next c).Careful error post (togo + 1)) ∨ ended s' ∧ (next c).Careful error post 0 := by
        cases c with
        | none => exact .inr ⟨atEnd rfl, careful 0⟩
        | some b => exact .inl ⟨goesOn nofun, fun togo => careful (togo + 1) b⟩
      obtain ⟨r, s'', ran, final⟩ := inductionHypothesis c s' state'
      exact ⟨r, s'', by rw [runFrom, got]; exact ran, final⟩
    · exact careful.elim

/-- A careful program does the same on a source as on the list of the items that the source holds. -/
theorem runFrom_run {holds : σ → List β → Prop} (first : ∀ s b l, holds s (b :: l) → ∃ s', getc s = some (some b, s') ∧ holds s' l)
    (last : ∀ s, holds s [] → ∃ s', getc s = some (none, s'))
    {m : Program β ε α} {s : σ} {l : List β} (careful : m.Careful error post (l.length + 1)) (content : holds s l) :
    ∃ s', m.runFrom getc s = some ((m.run l).map Prod.fst, s') := by
  suffices general : ∀ (m : Program β ε α) (togo : Nat) (s : σ) (l : List β),
      (togo = l.length + 1 ∧ holds s l ∨ togo = 0 ∧ l = []) → m.Careful error post togo →
      ∃ s', m.runFrom getc s = some ((m.run l).map Prod.fst, s') from general m _ s l (.inl ⟨rfl, content⟩) careful
  intro m
  induction m with
  | done a => exact fun togo s l state careful => ⟨s, rfl⟩
  | fail e => exact fun togo s l state careful => ⟨s, rfl⟩
  | get next inductionHypothesis =>
    intro togo s l state careful
    obtain ⟨rfl, content⟩ | ⟨rfl, rfl⟩ := state
    · cases l with
      | nil =>
        obtain ⟨s', got⟩ := last s content
        rw [runFrom, got]
        exact inductionHypothesis none 0 s' [] (.inr ⟨rfl, rfl⟩) careful
      | cons b l =>
        obtain ⟨s', got, content'⟩ := first s b l content
        rw [runFrom, got]
        exact inductionHypothesis (some b) (l.length + 1) s' l (.inl ⟨rfl, content'⟩) (careful b)
    · exact careful.elim

end Careful

end Program

end Gafq.Base
