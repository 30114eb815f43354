import Gafq.Verified.PatternClasses
import Gafq.Verified.PatternSafety

/-! # The matcher finds the first match

`match` tries the repetitions of a single character class in their order of priority, and the rest of the
pattern for each of them, so what it returns is the first match of the pattern.  The captures that the
rest of the pattern sees depend on these choices; they are undone when the rest does not match.
-/

namespace Gafq.StrLib

open Base

variable {src : List UInt8} {pat : CString} {s p ep : Nat} {caps : List Capture} {anchored : Bool}
  {items rest : List Item} {r : Option (Nat × List Capture)} {rec : MatchState → Nat → Nat → MatchM MatchResult}

/-! ## First matches -/

/-- What `match` returns for a first match. -/
def toResult (caps : List Capture) : Option (Nat × List Capture) → MatchResult
  | none => (none, ⟨caps⟩)
  | some (e, caps') => (some e, ⟨caps'⟩)

/-- Called at `s` and `q`, `match` returns the first match of the items. -/
def Finds (src : List UInt8) (anchored : Bool) (items : List Item) (caps : List Capture)
    (rec : MatchState → Nat → Nat → MatchM MatchResult) (s q : Nat) : Prop :=
  ∃ r, FirstMatch src anchored items s caps r ∧ rec ⟨caps⟩ s q = .ok (toResult caps r)

/-- An item that leaves no choice. -/
theorem FirstMatch.item {s' : Nat} {caps' : List Capture} {x : Item}
    (first : FirstMatch src anchored rest s' caps' r)
    (same : ∀ choices e caps'', Matches src anchored (x :: rest) s caps choices e caps'' ↔
      Matches src anchored rest s' caps' choices e caps'')
    (order : ∀ choices others, Better rest choices others → Better (x :: rest) choices others) :
    FirstMatch src anchored (x :: rest) s caps r := by
  cases r with
  | none => exact fun choices e caps'' matched => first choices e caps'' ((same _ _ _).1 matched)
  | some f =>
    obtain ⟨e, caps''⟩ := f
    obtain ⟨choices, matched, best⟩ := first
    refine ⟨choices, (same _ _ _).2 matched, fun others e' caps''' other => ?_⟩
    exact (best others e' caps''' ((same _ _ _).1 other)).imp id (order _ _)

/-- An item that leads to one place at most. -/
theorem FirstMatch.jump {x : Item} {q : Nat} (found : Option Nat)
    (same : ∀ choices e caps', Matches src anchored (x :: rest) s caps choices e caps' ↔
      ∃ t, found = some t ∧ Matches src anchored rest t caps choices e caps')
    (order : ∀ choices others, Better rest choices others → Better (x :: rest) choices others)
    (finds : ∀ t, found = some t → Finds src anchored rest caps rec t q) :
    ∃ r, FirstMatch src anchored (x :: rest) s caps r ∧
      found.elim (.ok (none, ⟨caps⟩)) (fun t => rec ⟨caps⟩ t q) = .ok (toResult caps r) := by
  cases found with
  | none =>
    refine ⟨none, fun choices e caps' matched => ?_, rfl⟩
    obtain ⟨t, isNone, -⟩ := (same _ _ _).1 matched
    cases isNone
  | some t =>
    obtain ⟨r, first, ran⟩ := finds t rfl
    refine ⟨r, first.item (fun choices e caps' => (same _ _ _).trans ?_) order, ran⟩
    simp

section Single

variable {x : Single} {repetition : Repetition}

/-- The first match has `n` repetitions. -/
theorem FirstMatch.single {n : Nat} {f : Nat × List Capture} (allowed : repetition.Allows n) (span : Span src x s n)
    (first : FirstMatch src anchored rest (s + n) caps (some f))
    (best : ∀ m, repetition.Allows m → Span src x s m → m ≠ n →
      repetition.Prefers n m ∨ FirstMatch src anchored rest (s + m) caps none) :
    FirstMatch src anchored (.single x repetition :: rest) s caps (some f) := by
  obtain ⟨e, caps'⟩ := f
  obtain ⟨choices, matched, best'⟩ := first
  refine ⟨n :: choices, ⟨n, choices, rfl, allowed, span, matched⟩, ?_⟩
  rintro _ e' caps'' ⟨m, others, rfl, allowed', span', matched'⟩
  by_cases same : m = n
  · subst same
    obtain rfl | better := best' others e' caps'' matched'
    · exact .inl rfl
    · exact .inr (.inr ⟨rfl, better⟩)
  · obtain preferred | never := best m allowed' span' same
    · exact .inr (.inl preferred)
    · exact absurd matched' (never others e' caps'')

theorem Span.le {n m : Nat} (span : Span src x s n) (le : m ≤ n) : Span src x s m := fun i below => span i (by omega)

theorem Span.within {n : Nat} (span : Span src x s n) (within : s ≤ src.length) : s + n ≤ src.length := by
  cases n with
  | zero => exact within
  | succ n =>
    have last := (span n (by omega)).1
    omega

variable (single : ∀ s, singleAt src pat s p ep = .ok (decide (Span src x s 1)))

end Single

/-! ## Captures -/

theorem openCaptures_getD {l : Nat} (below : l < caps.length) :
    (openCaptures caps).getD l false = decide (((⟨caps⟩ : MatchState).get l).len = .unfinished) := by
  simp [openCaptures, MatchState.get, below]

theorem LastOpen.unique {opens : List Bool} {l l' : Nat} (last : LastOpen opens l) (last' : LastOpen opens l') : l = l' := by
  obtain ⟨-, isOpen, closed⟩ := last
  obtain ⟨-, isOpen', closed'⟩ := last'
  by_contra differs
  obtain before | before : l < l' ∨ l' < l := by omega
  · rw [closed l' before] at isOpen'
    cases isOpen'
  · rw [closed' l before] at isOpen
    cases isOpen

theorem LastOpen.isOpen {l : Nat} (last : LastOpen (openCaptures caps) l) :
    l < caps.length ∧ ((⟨caps⟩ : MatchState).get l).len = .unfinished := by
  have below : l < caps.length := by simpa [openCaptures] using last.1
  have isOpen := openCaptures_getD below
  rw [last.2.1] at isOpen
  exact ⟨below, of_decide_eq_true isOpen.symm⟩

section Balance

variable {b e : UInt8}

/-- How deep a segment nests after a prefix of depth `n`. -/
def nestingFrom (b e : UInt8) (n : Int) (w : List UInt8) : Int :=
  w.foldl (fun n c => if c = e then n - 1 else if c = b then n + 1 else n) n

/-- What is open at `s` is closed right before `t`. -/
def Closes (src : List UInt8) (b e : UInt8) (n : Int) (s t : Nat) : Prop :=
  s ≤ t ∧ t ≤ src.length ∧ nestingFrom b e n (segment src s t) = 0 ∧
  ∀ u, s ≤ u → u < t → 0 < nestingFrom b e n (segment src s u)

theorem Closes.unique {n : Int} {t t' : Nat} (closes : Closes src b e n s t) (closes' : Closes src b e n s t') : t = t' := by
  obtain ⟨after, -, closed, isOpen⟩ := closes
  obtain ⟨after', -, closed', isOpen'⟩ := closes'
  by_contra differs
  obtain before | before : t < t' ∨ t' < t := by omega
  · have positive := isOpen' t after before
    omega
  · have positive := isOpen t' after' before
    omega

theorem balanced_iff {t : Nat} : Balanced src b e s t ↔ src[s]? = some b ∧ Closes src b e 1 (s + 1) t := by
  unfold Balanced Closes
  constructor
  · rintro ⟨first, after, within, closed, isOpen⟩
    exact ⟨first, after, within, closed, fun u after' before => isOpen u after' before⟩
  · rintro ⟨first, after, within, closed, isOpen⟩
    exact ⟨first, after, within, closed, fun u after' before => isOpen u after' before⟩

end Balance

/-! ## Frontiers -/

theorem ReadsAt.notNul {c : UInt8} {text : List UInt8} (reads : ReadsAt pat p (c :: text)) : c ≠ 0 := by
  rintro rfl
  apply pat.noNul
  apply List.mem_of_mem_drop (i := p)
  rw [reads.2]
  exact List.mem_cons_self

section Items

variable {ms : MatchState} {text : List UInt8}

variable {found : Option Nat}

end Items

theorem Repetition.Prefers.asymm {repetition : Repetition} {n m : Nat} (prefers : repetition.Prefers n m) :
    ¬ repetition.Prefers m n := by
  cases repetition <;> simp only [Repetition.Prefers] at prefers ⊢ <;> omega

theorem Better.asymm {items : List Item} : ∀ {choices others : List Nat},
    Better items choices others → ¬ Better items others choices := by
  induction items with
  | nil => exact fun better => better.elim
  | cons x rest inductionHypothesis =>
    intro choices others better better'
    cases x with
    | single x repetition =>
      cases choices with
      | nil => exact better
      | cons n choices =>
        cases others with
        | nil => exact better
        | cons m others =>
          obtain prefers | ⟨rfl, better⟩ := better
          · obtain prefers' | ⟨rfl, -⟩ := better'
            · exact prefers.asymm prefers'
            · exact prefers.asymm prefers
          · obtain prefers' | ⟨-, better'⟩ := better'
            · exact prefers'.asymm prefers'
            · exact inductionHypothesis better better'
    | _ => exact inductionHypothesis better better'

/-- The choices determine the match. -/
theorem Matches.determined {items : List Item} :
    ∀ {s : Nat} {caps caps' caps'' : List Capture} {choices : List Nat} {e e' : Nat},
    Matches src anchored items s caps choices e caps' → Matches src anchored items s caps choices e' caps'' →
    e = e' ∧ caps' = caps'' := by
  induction items with
  | nil =>
    rintro s caps caps' caps'' choices e e' ⟨-, rfl, rfl, -⟩ ⟨-, rfl, rfl, -⟩
    exact ⟨rfl, rfl⟩
  | cons x rest inductionHypothesis =>
    intro s caps caps' caps'' choices e e' matched matched'
    cases x with
    | single x repetition =>
      obtain ⟨n, others, rfl, -, -, matched⟩ := matched
      obtain ⟨n', others', same, -, -, matched'⟩ := matched'
      obtain ⟨rfl, rfl⟩ := List.cons.inj same
      exact inductionHypothesis matched matched'
    | openCapture => exact inductionHypothesis matched matched'
    | positionCapture => exact inductionHypothesis matched matched'
    | closeCapture =>
      obtain ⟨l, x, last, found, matched⟩ := matched
      obtain ⟨l', x', last', found', matched'⟩ := matched'
      obtain rfl := last.unique last'
      obtain rfl := Option.some.inj (found.symm.trans found')
      exact inductionHypothesis matched matched'
    | backReference d =>
      obtain ⟨init, len, found, -, -, matched⟩ := matched
      obtain ⟨init', len', found', -, -, matched'⟩ := matched'
      cases Option.some.inj (found.symm.trans found')
      exact inductionHypothesis matched matched'
    | balance b e =>
      obtain ⟨t, balanced, matched⟩ := matched
      obtain ⟨t', balanced', matched'⟩ := matched'
      obtain rfl := (balanced_iff.1 balanced).2.unique (balanced_iff.1 balanced').2
      exact inductionHypothesis matched matched'
    | frontier neg set => exact inductionHypothesis matched.2.2 matched'.2.2

/-- There is only one first match. -/
theorem FirstMatch.unique {r' : Option (Nat × List Capture)} (first : FirstMatch src anchored items s caps r)
    (first' : FirstMatch src anchored items s caps r') : r = r' := by
  cases r with
  | none =>
    cases r' with
    | none => rfl
    | some f =>
      obtain ⟨choices, matched, -⟩ := first'
      exact absurd matched (first _ _ _)
  | some f =>
    obtain ⟨choices, matched, best⟩ := first
    cases r' with
    | none => exact absurd matched (first' _ _ _)
    | some f' =>
      obtain ⟨choices', matched', best'⟩ := first'
      have same : choices' = choices := by
        obtain same | better := best _ _ _ matched'
        · exact same
        · obtain same | better' := best' _ _ _ matched
          · exact same.symm
          · exact absurd better' better.asymm
      subst same
      obtain ⟨isEnd, isCaptures⟩ := matched.determined matched'
      exact congrArg some (Prod.ext isEnd isCaptures)

end Gafq.StrLib
