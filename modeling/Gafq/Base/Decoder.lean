import Mathlib

/-! # Decoders that consume exactly what an encoder wrote

A decoder is a state transformer that may fail, over a source of items whose remaining contents
are observed through `content`.  `Consumes content p items x` says that from any source that still
holds `items` followed by anything, `p` yields `x` and leaves exactly what followed.  The rules
below compose such facts along the structure of a decoder, so that a format's round trip is proved
field by field.

A grammar relates item sequences to the values they stand for, and `Decodes content p G` says that
`p` accepts exactly the sequences of `G`: it consumes every one of them, and whatever it returns
stands for the items it took.
-/

namespace Gafq.Base

variable {σ ε β α γ : Type} {content : σ → List β}

/-- A decoder over sources `σ` with errors `ε`. -/
abbrev Decoder (σ ε α : Type) := StateT σ (Except ε) α

/-- `p` turns `items` into `x` and consumes nothing else. -/
def Consumes (content : σ → List β) (p : Decoder σ ε α) (items : List β) (x : α) : Prop :=
  ∀ s rest, content s = items ++ rest → ∃ s', p s = .ok (x, s') ∧ content s' = rest

theorem Consumes.pure (x : α) : Consumes content (pure x : Decoder σ ε α) [] x :=
  fun s _ holds => ⟨s, rfl, by simpa using holds⟩

theorem Consumes.bind {p : Decoder σ ε α} {q : α → Decoder σ ε γ} {first second : List β} {x : α} {y : γ}
    (head : Consumes content p first x) (tail : Consumes content (q x) second y) :
    Consumes content (p >>= q) (first ++ second) y := by
  intro s rest holds
  obtain ⟨s', ran, holds'⟩ := head s (second ++ rest) (by rw [holds, List.append_assoc])
  obtain ⟨s'', ran', holds''⟩ := tail s' rest holds'
  refine ⟨s'', ?_, holds''⟩
  show (p s >>= fun r => q r.1 r.2) = _
  rw [ran]
  exact ran'

/-- A decoder whose second part reads nothing. -/
theorem Consumes.finish {p : Decoder σ ε α} {q : α → Decoder σ ε γ} {items : List β} {x : α} {y : γ}
    (head : Consumes content p items x) (tail : Consumes content (q x) [] y) :
    Consumes content (p >>= q) items y := by
  have both := head.bind tail
  rwa [List.append_nil] at both

/-- A decoder that ends in a pure function of what it read. -/
theorem Consumes.map {p : Decoder σ ε α} {items : List β} {x : α} (f : α → γ)
    (ran : Consumes content p items x) : Consumes content (p >>= fun y => Pure.pure (f y)) items (f x) :=
  ran.finish (Consumes.pure (f x))

/-- Run `p` once for each of `n` items. -/
def repeatDecoder (p : Decoder σ ε α) : Nat → Decoder σ ε (List α)
  | 0 => Pure.pure []
  | n + 1 => do
    let x ← p
    let xs ← repeatDecoder p n
    Pure.pure (x :: xs)

theorem Consumes.repeat {p : Decoder σ ε α} (encode : γ → List β) (result : γ → α) (xs : List γ)
    (each : ∀ x ∈ xs, Consumes content p (encode x) (result x)) :
    Consumes content (repeatDecoder p xs.length) (xs.flatMap encode) (xs.map result) := by
  induction xs with
  | nil => exact Consumes.pure []
  | cons x xs inductionHypothesis =>
    have head := each x (List.mem_cons_self ..)
    have tail := inductionHypothesis fun y member => each y (List.mem_cons_of_mem _ member)
    simp only [List.length_cons, repeatDecoder, List.flatMap_cons, List.map_cons]
    exact head.bind (tail.map (result x :: ·))

/-! ## Decoders of a grammar -/

/-- `p` accepts the sequences of `G`, and no others. -/
structure Decodes (content : σ → List β) (p : Decoder σ ε α) (G : List β → α → Prop) : Prop where
  complete : ∀ items x, G items x → Consumes content p items x
  sound : ∀ s x s', p s = .ok (x, s') → ∃ items, content s = items ++ content s' ∧ G items x

/-- One sequence after another, the second depending on the value of the first. -/
def Seq (G : List β → α → Prop) (H : α → List β → γ → Prop) (items : List β) (y : γ) : Prop :=
  ∃ first second x, items = first ++ second ∧ G first x ∧ H x second y

/-- No items, for the value `x`. -/
def Empty (x : α) (items : List β) (y : α) : Prop := items = [] ∧ y = x

/-- Any number of sequences of `G`, one after another. -/
def Repeated (G : List β → α → Prop) (items : List β) (xs : List α) : Prop :=
  ∃ parts : List (List β), items = parts.flatten ∧ List.Forall₂ G parts xs

theorem Decodes.of_iff {p : Decoder σ ε α} {G H : List β → α → Prop} (decodes : Decodes content p G)
    (same : ∀ items x, G items x ↔ H items x) : Decodes content p H where
  complete items x derived := decodes.complete items x ((same items x).2 derived)
  sound s x s' ran := by
    obtain ⟨items, split, derived⟩ := decodes.sound s x s' ran
    exact ⟨items, split, (same items x).1 derived⟩

theorem Decodes.pure (x : α) : Decodes content (pure x : Decoder σ ε α) (Empty x) where
  complete := by
    rintro items y ⟨rfl, rfl⟩
    exact Consumes.pure y
  sound := by
    intro s y s' ran
    cases ran
    exact ⟨[], rfl, rfl, rfl⟩

theorem Decodes.throw (e : ε) : Decodes content (throw e : Decoder σ ε α) fun _ _ => False where
  complete _ _ derived := derived.elim
  sound _ _ _ ran := nomatch ran

/-- A computation that succeeds ran its two parts. -/
theorem bind_eq_ok {p : Decoder σ ε α} {q : α → Decoder σ ε γ} {s s' : σ} {y : γ}
    (ran : (p >>= q) s = .ok (y, s')) : ∃ x middle, p s = .ok (x, middle) ∧ q x middle = .ok (y, s') := by
  change (p s >>= fun r => q r.1 r.2) = _ at ran
  cases first : p s with
  | error e => rw [first] at ran; cases ran
  | ok r => rw [first] at ran; exact ⟨r.1, r.2, rfl, ran⟩

theorem Decodes.bind {p : Decoder σ ε α} {q : α → Decoder σ ε γ} {G : List β → α → Prop}
    {H : α → List β → γ → Prop} (head : Decodes content p G) (tail : ∀ x, Decodes content (q x) (H x)) :
    Decodes content (p >>= q) (Seq G H) where
  complete := by
    rintro items y ⟨first, second, x, rfl, derived, derived'⟩
    exact (head.complete first x derived).bind ((tail x).complete second y derived')
  sound := by
    intro s y s' ran
    obtain ⟨x, middle, ran, ran'⟩ := bind_eq_ok ran
    obtain ⟨first, split, derived⟩ := head.sound s x middle ran
    obtain ⟨second, split', derived'⟩ := (tail x).sound middle y s' ran'
    exact ⟨first ++ second, by rw [split, split', List.append_assoc], first, second, x, rfl, derived, derived'⟩

theorem Decodes.repeat {p : Decoder σ ε α} {G : List β → α → Prop} (each : Decodes content p G) (n : Nat) :
    Decodes content (repeatDecoder p n) fun items xs => xs.length = n ∧ Repeated G items xs := by
  induction n with
  | zero =>
    refine (Decodes.pure []).of_iff fun items xs => ⟨?_, ?_⟩
    · rintro ⟨rfl, rfl⟩
      exact ⟨rfl, [], rfl, .nil⟩
    · rintro ⟨length, parts, rfl, derived⟩
      cases List.eq_nil_of_length_eq_zero length
      cases derived
      exact ⟨rfl, rfl⟩
  | succ n inductionHypothesis =>
    have both := each.bind fun x => inductionHypothesis.bind fun xs => Decodes.pure (x :: xs)
    refine both.of_iff fun items ys => ⟨?_, ?_⟩
    · rintro ⟨first, second, x, rfl, derived, rest, none, xs, rfl, ⟨length, parts, rfl, tail⟩, rfl, rfl⟩
      exact ⟨by simp [length], first :: parts, by simp, .cons derived tail⟩
    · rintro ⟨length, parts, rfl, derived⟩
      cases derived with
      | nil => cases length
      | @cons first x parts xs head tail =>
        have length : xs.length = n := by simpa using length
        exact ⟨first, parts.flatten, x, by simp, head, parts.flatten, [], xs, by simp,
          ⟨length, parts, rfl, tail⟩, rfl, rfl⟩

end Gafq.Base
