import Gafq.Verified.LongStrings

/-! # How tokens are spelled

What `glex` has taken from the stream when it returns a token: blanks and comments, and then the spelling of
the token.  Only `check_next` takes a character that does not belong to a token: `strchr` finds the NUL at
the end of the characters that it is asked for.
-/

namespace Gafq.Lexer

open Base Program

variable {N : Type} {ls ls' ls'' : LexState N} {c d : UInt8} {l l' l'' text text' saved saved' : List UInt8} {fuel : Nat}

/-! ## What has been taken from the stream -/

/-- The characters from the current one on. -/
def upcoming (ls : LexState N) (l : List UInt8) : List UInt8 := ls.current.elim [] (· :: l)

/-- Nothing is left behind the end of the stream. -/
def Ended (ls : LexState N) (l : List UInt8) : Prop := ls.current = none → l = []

/-- The lexer has taken `text` from the stream. -/
structure Passed (ls : LexState N) (l text : List UInt8) (ls' : LexState N) (l' : List UInt8) : Prop where
  upcoming : upcoming ls l = text ++ upcoming ls' l'
  decpoint : ls'.decpoint = ls.decpoint
  ended : Ended ls' l'

/-- What holds of the lexer and the stream between two tokens. -/
structure Reading (ls : LexState N) (l : List UInt8) : Prop where
  ended : Ended ls l
  decpoint : ls.decpoint ≠ 0

/-- It has put `saved` into its buffer. -/
structure Took (ls : LexState N) (l text saved : List UInt8) (ls' : LexState N) (l' : List UInt8) : Prop
    extends Passed ls l text ls' l' where
  buff : ls'.buff = ls.buff ++ saved

theorem Passed.nothing (ended : Ended ls l) : Passed ls l [] ls l := ⟨rfl, rfl, ended⟩

theorem Passed.trans (first : Passed ls l text ls' l') (second : Passed ls' l' text' ls'' l'') :
    Passed ls l (text ++ text') ls'' l'' where
  upcoming := by rw [first.upcoming, second.upcoming, List.append_assoc]
  decpoint := second.decpoint.trans first.decpoint
  ended := second.ended

theorem Passed.reading (passed : Passed ls l text ls' l') (reading : Reading ls l) : Reading ls' l' :=
  ⟨passed.ended, by rw [passed.decpoint]; exact reading.decpoint⟩

theorem Took.nothing (ended : Ended ls l) : Took ls l [] [] ls l := ⟨.nothing ended, by simp⟩

theorem Took.trans (first : Took ls l text saved ls' l') (second : Took ls' l' text' saved' ls'' l'') :
    Took ls l (text ++ text') (saved ++ saved') ls'' l'' where
  toPassed := first.toPassed.trans second.toPassed
  buff := by rw [second.buff, first.buff, List.append_assoc]

theorem upcoming_some (here : ls.current = some c) (l : List UInt8) : upcoming ls l = c :: l := by
  simp [upcoming, here]

theorem next_took (here : ls.current = some c) (ran : (next ls).run l = .ok (ls', l')) : Took ls l [c] [] ls' l' := by
  rw [next_run] at ran
  obtain ⟨rfl, rfl⟩ := Prod.mk.inj (Except.ok.inj ran)
  refine ⟨⟨?_, rfl, ?_⟩, by simp⟩
  · rw [upcoming_some here]
    cases l <;> simp [upcoming]
  · cases l with
    | nil => exact fun _ => rfl
    | cons d l => exact nofun

theorem save_took (ended : Ended ls l) (ran : (save ls c).run l = .ok (ls', l')) :
    Took ls l [] [c] ls' l' ∧ ls'.current = ls.current ∧ l' = l := by
  simp only [save] at ran
  split at ran
  · split at ran
    · cases ran
    · obtain ⟨rfl, rfl⟩ := run_done.mp ran
      exact ⟨⟨⟨rfl, rfl, ended⟩, rfl⟩, rfl, rfl⟩
  · obtain ⟨rfl, rfl⟩ := run_done.mp ran
    exact ⟨⟨⟨rfl, rfl, ended⟩, rfl⟩, rfl, rfl⟩

theorem ended_of_some (here : ls.current = some c) (l : List UInt8) : Ended ls l := by
  intro none
  rw [here] at none
  cases none

theorem saveAndNext_took (here : ls.current = some c) (ran : (saveAndNext ls).run l = .ok (ls', l')) :
    Took ls l [c] [c] ls' l' := by
  simp only [saveAndNext, run_bind_returned] at ran
  obtain ⟨ls₁, l₁, saved, moved⟩ := ran
  have char : ls.currentChar = c := by simp [LexState.currentChar, here]
  rw [char] at saved
  obtain ⟨took, current, rfl⟩ := save_took (ended_of_some here l) saved
  exact took.trans (next_took (current.trans here) moved)

theorem lexerror_run {α : Type} {a : α} (msg : String) (token : Nat) : (lexerror ls msg token : LexM α).run l ≠ .ok (a, l') := by
  intro ran
  simp only [lexerror] at ran
  split at ran
  · cases ran
  · rw [run_bind_returned] at ran
    obtain ⟨near, middle, -, failed⟩ := ran
    cases failed

theorem syntaxerror_run {α : Type} {a : α} (msg : String) : (syntaxerror ls msg : LexM α).run l ≠ .ok (a, l') :=
  lexerror_run msg _

/-- The characters of the line break that begins with `c`, before `s`. -/
def lineBreak (c : UInt8) : (s : List UInt8) → List UInt8
  | [] => [c]
  | d :: _ => if isBreak d ∧ d ≠ c then [c, d] else [c]

theorem lineBreak_afterBreak (c : UInt8) (s : List UInt8) : lineBreak c s ++ afterBreak c s = c :: s := by
  cases s with
  | nil => rfl
  | cons d s =>
    simp only [lineBreak, afterBreak]
    split <;> rfl

theorem inclinenumber_took (here : ls.current = some c) (ran : (inclinenumber ls).run l = .ok (ls', l')) :
    Took ls l (lineBreak c l) [] ls' l' ∧ upcoming ls' l' = afterBreak c l := by
  rw [inclinenumber_counts here] at ran
  split at ran
  · exact absurd ran (syntaxerror_run _)
  · obtain ⟨rfl, rfl⟩ := run_done.mp ran
    have left : upcoming { ls with current := (afterBreak c l).head?, linenumber := ls.linenumber + 1 } (afterBreak c l).tail =
        afterBreak c l := by
      cases afterBreak c l <;> rfl
    refine ⟨⟨⟨?_, rfl, ?_⟩, by simp⟩, left⟩
    · rw [left, lineBreak_afterBreak, upcoming_some here]
    · simp only [Ended]
      cases afterBreak c l with
      | nil => exact fun _ => rfl
      | cons d s => exact nofun

/-- `check_next` takes one of the characters, or a NUL. -/
theorem checkNext_took {set : String} {found : Bool} (plain : 255 ∉ bytes set) (ended : Ended ls l)
    (ran : (checkNext ls set).run l = .ok ((found, ls'), l')) :
    (found = true ∧ ∃ c, ls.current = some c ∧ (c ∈ bytes set ∨ c = 0) ∧ Took ls l [c] [c] ls' l') ∨
    (found = false ∧ ls' = ls ∧ l' = l ∧ ∀ c, ls.current = some c → c ∉ bytes set ∧ c ≠ 0) := by
  simp only [checkNext] at ran
  split at ran
  · next among =>
    rw [run_bind_returned] at ran
    obtain ⟨ls₁, l₁, moved, done⟩ := ran
    obtain ⟨same, rfl⟩ := run_done.mp done
    obtain ⟨rfl, rfl⟩ := Prod.mk.inj same
    cases here : ls.current with
    | none =>
      simp only [LexState.currentChar, here, Option.getD_none, List.mem_append, List.mem_singleton] at among
      obtain among | zero := among
      · exact absurd among plain
      · cases zero
    | some c =>
      simp only [LexState.currentChar, here, Option.getD_some, List.mem_append, List.mem_singleton] at among
      exact .inl ⟨rfl, c, rfl, among, saveAndNext_took here moved⟩
  · next missing =>
    obtain ⟨same, rfl⟩ := run_done.mp ran
    obtain ⟨rfl, rfl⟩ := Prod.mk.inj same
    refine .inr ⟨rfl, rfl, rfl, fun c here => ?_⟩
    simpa [LexState.currentChar, here] using missing

/-- `saveWhile` takes the characters up to the first one that does not satisfy `f`. -/
theorem saveWhile_took {f : UInt8 → Bool} (ended : Ended ls l) (ran : (saveWhile f fuel ls).run l = .ok (ls', l')) :
    Took ls l ((upcoming ls l).takeWhile f) ((upcoming ls l).takeWhile f) ls' l' := by
  induction fuel generalizing ls l with
  | zero => cases ran
  | succ fuel inductionHypothesis =>
    rw [saveWhile] at ran
    cases here : ls.current with
    | none =>
      rw [if_neg (by simp [LexState.currentIs, here])] at ran
      obtain ⟨rfl, rfl⟩ := run_done.mp ran
      simpa [upcoming, here] using Took.nothing ended
    | some c =>
      cases holds : f c with
      | false =>
        rw [if_neg (by simp [LexState.currentIs, here, holds])] at ran
        obtain ⟨rfl, rfl⟩ := run_done.mp ran
        simpa [upcoming, here, holds] using Took.nothing ended
      | true =>
        rw [if_pos (by simp [LexState.currentIs, here, holds]), run_bind_returned] at ran
        obtain ⟨ls₁, l₁, moved, rest⟩ := ran
        have first := saveAndNext_took here moved
        have goesOn := first.trans (inductionHypothesis first.ended rest)
        rw [first.upcoming]
        simpa [holds] using goesOn

/-! ## Brackets -/

theorem skipSepLoop_took {count count' : Int} (ended : Ended ls l) (ran : (skipSepLoop fuel ls count).run l = .ok ((count', ls'), l')) :
    ∃ k : Nat, count' = count + k ∧ Took ls l (List.replicate k (byte '=')) (List.replicate k (byte '=')) ls' l' ∧
      ls'.current ≠ some (byte '=') := by
  induction fuel generalizing ls l count with
  | zero => cases ran
  | succ fuel inductionHypothesis =>
    rw [skipSepLoop] at ran
    split at ran
    · next here =>
      rw [run_bind_returned] at ran
      obtain ⟨ls₁, l₁, moved, rest⟩ := ran
      have first := saveAndNext_took here moved
      split at rest
      · obtain ⟨k, rfl, took, stops⟩ := inductionHypothesis first.ended rest
        refine ⟨k + 1, by omega, ?_, stops⟩
        rw [List.replicate_succ]
        exact first.trans took
      · cases rest
    · next stops =>
      obtain ⟨same, rfl⟩ := run_done.mp ran
      obtain ⟨rfl, rfl⟩ := Prod.mk.inj same
      exact ⟨0, by simp, .nothing ended, stops⟩

theorem skipSep_took {count : Int} (here : ls.current = some c) (ran : (skipSep fuel ls).run l = .ok ((count, ls'), l')) :
    ∃ k : Nat, count = (if ls'.current = some c then (k : Int) else -k - 1) ∧
      Took ls l (c :: List.replicate k (byte '=')) (c :: List.replicate k (byte '=')) ls' l' ∧ ls'.current ≠ some (byte '=') := by
  simp only [skipSep, run_bind_returned] at ran
  obtain ⟨ls₁, l₁, moved, ⟨count₁, ls₂⟩, l₂, looped, done⟩ := ran
  have first := saveAndNext_took here moved
  obtain ⟨k, rfl, took, stops⟩ := skipSepLoop_took first.ended looped
  obtain ⟨same, rfl⟩ := run_done.mp done
  obtain ⟨rfl, rfl⟩ := Prod.mk.inj same
  refine ⟨k, ?_, first.trans took, stops⟩
  rw [here, Int.zero_add]

/-- A run of `=` between two brackets is a long bracket of just one level. -/
theorem bracket_starts {b : UInt8} {n k : Nat} (notEqual : d ≠ byte '=')
    (starts : b :: (List.replicate n (byte '=') ++ [c]) <+: b :: (List.replicate k (byte '=') ++ d :: l)) (notSign : c ≠ byte '=') :
    n = k ∧ d = c := by
  have starts := (List.cons_prefix_cons.mp starts).2
  induction n generalizing k with
  | zero =>
    cases k with
    | zero => exact ⟨rfl, (List.cons_prefix_cons.mp starts).1.symm⟩
    | succ k => exact absurd (List.cons_prefix_cons.mp starts).1 notSign
  | succ n inductionHypothesis =>
    cases k with
    | zero => exact absurd (List.cons_prefix_cons.mp starts).1.symm notEqual
    | succ k =>
      have tails := (List.cons_prefix_cons.mp starts).2
      obtain ⟨rfl, same⟩ := inductionHypothesis (List.cons_prefix_cons.mpr ⟨rfl, tails⟩) tails
      exact ⟨rfl, same⟩

theorem NoCloser.cons {n : Nat} {s : List UInt8} (none : NoCloser n s) (differs : c ≠ byte ']') : NoCloser n (c :: s) := by
  intro i inside closes
  cases i with
  | zero => exact differs (List.cons_prefix_cons.mp closes).1.symm
  | succ i => exact none i (by simpa using inside) closes

theorem NoCloser.replicate {n : Nat} {s : List UInt8} (none : NoCloser n s) (k : Nat) :
    NoCloser n (List.replicate k (byte '=') ++ s) := by
  induction k with
  | zero => exact none
  | succ k inductionHypothesis => exact inductionHypothesis.cons (by decide)

theorem NoCloser.lineBreak {n : Nat} {s : List UInt8} (none : NoCloser n s) (isLine : isBreak c = true) (l : List UInt8) :
    NoCloser n (lineBreak c l ++ s) := by
  have differs {c : UInt8} (isLine : isBreak c = true) : c ≠ byte ']' := by
    rintro rfl
    cases isLine
  cases l with
  | nil => exact none.cons (differs isLine)
  | cons d l =>
    simp only [Lexer.lineBreak]
    split
    · next pair => exact (none.cons (differs pair.1)).cons (differs isLine)
    · exact none.cons (differs isLine)

/-- A closing half of another level, or one without its second half. -/
theorem NoCloser.closing {n k : Nat} {s : List UInt8} (none : NoCloser n s) (notSign : (s ++ closeBracket n).head? ≠ some (byte '='))
    (other : ¬ ((s ++ closeBracket n).head? = some (byte ']') ∧ k = n)) :
    NoCloser n (byte ']' :: (List.replicate k (byte '=') ++ s)) := by
  intro i inside closes
  cases i with
  | zero =>
    cases rest : s ++ closeBracket n with
    | nil =>
      have lengths := congrArg List.length rest
      simp [closeBracket] at lengths
    | cons d l =>
      rw [rest] at notSign other
      rw [List.drop_zero, List.cons_append, List.append_assoc, rest] at closes
      obtain ⟨rfl, rfl⟩ := bracket_starts (by simpa using notSign) closes (by decide)
      exact other ⟨rfl, rfl⟩
  | succ i => exact none.replicate k i (by simpa using inside) closes

/-! ## Long strings and comments -/

/-- The loop has passed `s` and the closing bracket; a string is in the buffer, with its closing bracket. -/
structure Enclosed (comment : Bool) (n : Nat) (ls : LexState N) (l s : List UInt8) (ls' : LexState N) (l' : List UInt8) : Prop
    extends Passed ls l (s ++ closeBracket n) ls' l' where
  noCloser : NoCloser n s
  buff : comment = false → ls'.buff = ls.buff ++ (normalized s ++ closeBracket n)

/-- Characters before an enclosed text that hold no closing bracket. -/
theorem Enclosed.prepend {comment : Bool} {n : Nat} {s : List UInt8} (passed : Passed ls l text ls' l')
    (saves : comment = false → ls'.buff = ls.buff ++ saved) (enclosed : Enclosed comment n ls' l' s ls'' l'')
    (noCloser : NoCloser n (text ++ s)) (normal : normalized (text ++ s) = saved ++ normalized s) :
    Enclosed comment n ls l (text ++ s) ls'' l'' where
  toPassed := by
    rw [List.append_assoc]
    exact passed.trans enclosed.toPassed
  noCloser := noCloser
  buff isString := by rw [enclosed.buff isString, saves isString, normal, List.append_assoc, List.append_assoc]

theorem current_of_upcoming {s : List UInt8} (left : upcoming ls l = s) : ls.current = s.head? := by
  rw [← left, upcoming]
  cases ls.current <;> rfl

/-- The text after a bracket begins with what comes before the next closing bracket. -/
theorem Enclosed.current {comment : Bool} {n : Nat} {s : List UInt8} (enclosed : Enclosed comment n ls l s ls' l') :
    ls.current = (s ++ closeBracket n).head? := by
  rw [current_of_upcoming enclosed.upcoming]
  cases s <;> rfl

/-- What goes on after a line break is what `inclinenumber` leaves. -/
theorem afterBreak_lineBreak {n : Nat} {s rest : List UInt8} (left : afterBreak c l = s ++ closeBracket n ++ rest) :
    ∃ m, lineBreak c l ++ s = c :: m ∧ afterBreak c m = s := by
  cases l with
  | nil =>
    have lengths := congrArg List.length left
    simp [afterBreak, closeBracket] at lengths
  | cons d l =>
    simp only [afterBreak, lineBreak] at left ⊢
    by_cases pair : isBreak d = true ∧ d ≠ c
    · rw [if_pos pair]
      exact ⟨d :: s, rfl, if_pos pair⟩
    · rw [if_neg pair] at left
      rw [if_neg pair]
      refine ⟨s, rfl, ?_⟩
      cases s with
      | nil => rfl
      | cons e s =>
        obtain rfl := (List.cons.inj left).1
        exact if_neg pair

theorem normalized_lineBreak {n : Nat} {s rest : List UInt8} (isLine : isBreak c = true)
    (left : afterBreak c l = s ++ closeBracket n ++ rest) : normalized (lineBreak c l ++ s) = byte '\n' :: normalized s := by
  obtain ⟨m, whole, after⟩ := afterBreak_lineBreak left
  rw [whole, normalized_break isLine, after]

theorem dropBreak_lineBreak {n : Nat} {s rest : List UInt8} (isLine : isBreak c = true)
    (left : afterBreak c l = s ++ closeBracket n ++ rest) : dropBreak (lineBreak c l ++ s) = s := by
  obtain ⟨m, whole, after⟩ := afterBreak_lineBreak left
  rw [whole, dropBreak, if_pos isLine, after]

theorem normalized_bracket {b : UInt8} (plain : isBreak b = false) (k : Nat) (s : List UInt8) :
    normalized (b :: List.replicate k (byte '=') ++ s) = b :: List.replicate k (byte '=') ++ normalized s := by
  rw [List.cons_append, normalized_plain plain, normalized_replicate (by decide), List.cons_append]

theorem longStringLoop_took {comment : Bool} {n : Nat} {left : Nat} (ended : Ended ls l)
    (ran : (longStringLoop fuel comment n left ls).run l = .ok (ls', l')) : ∃ s, Enclosed comment n ls l s ls' l' := by
  induction left generalizing ls l with
  | zero => cases ran
  | succ left inductionHypothesis =>
    cases here : ls.current with
    | none =>
      rw [longStringLoop, here] at ran
      exact absurd ran (lexerror_run _ _)
    | some c =>
      rw [longStringLoop, here] at ran
      simp only at ran
      by_cases opens : c = byte '['
      · subst opens
        rw [if_pos rfl, run_bind_returned] at ran
        obtain ⟨⟨count, ls₁⟩, l₁, skipped, rest⟩ := ran
        obtain ⟨k, isCount, took, -⟩ := skipSep_took here skipped
        simp only at rest
        split at rest
        · next nested =>
          -- the second half of a nested bracket is saved as well
          have again : ls₁.current = some (byte '[') := by
            by_contra other
            rw [if_neg other] at isCount
            omega
          rw [run_bind_returned] at rest
          obtain ⟨ls₂, l₂, moved, rest⟩ := rest
          split at rest
          · exact absurd rest (lexerror_run _ _)
          · have both := took.trans (saveAndNext_took again moved)
            obtain ⟨s, enclosed⟩ := inductionHypothesis both.ended rest
            refine ⟨_, enclosed.prepend both.toPassed (fun _ => both.buff) ?_ ?_⟩
            · rw [List.append_assoc]
              exact ((enclosed.noCloser.cons (by decide)).replicate k).cons (by decide)
            · rw [List.append_assoc, normalized_bracket (by decide), List.singleton_append, normalized_plain (by decide)]
              simp
        · obtain ⟨s, enclosed⟩ := inductionHypothesis took.ended rest
          exact ⟨_, enclosed.prepend took.toPassed (fun _ => took.buff) ((enclosed.noCloser.replicate k).cons (by decide))
            (normalized_bracket (by decide) k s)⟩
      rw [if_neg opens] at ran
      by_cases closes : c = byte ']'
      · subst closes
        rw [if_pos rfl, run_bind_returned] at ran
        obtain ⟨⟨count, ls₁⟩, l₁, skipped, rest⟩ := ran
        obtain ⟨k, isCount, took, stops⟩ := skipSep_took here skipped
        simp only at rest
        split at rest
        · next closed =>
          have again : ls₁.current = some (byte ']') ∧ k = n := by
            split at isCount
            · next same => exact ⟨same, by omega⟩
            · omega
          obtain ⟨again, rfl⟩ := again
          have both := took.trans (saveAndNext_took again rest)
          exact ⟨[], both.toPassed, fun i inside => absurd inside (Nat.not_lt_zero i), fun _ => both.buff⟩
        · next open' =>
          obtain ⟨s, enclosed⟩ := inductionHypothesis took.ended rest
          have current := enclosed.current
          refine ⟨_, enclosed.prepend took.toPassed (fun _ => took.buff) (enclosed.noCloser.closing ?_ ?_)
            (normalized_bracket (by decide) k s)⟩
          · rwa [← current]
          · rintro ⟨again, rfl⟩
            rw [← current] at again
            rw [if_pos again] at isCount
            exact open' isCount
      rw [if_neg closes] at ran
      by_cases isLine : c = byte '\n' ∨ c = byte '\r'
      · rw [if_pos isLine, run_bind_returned] at ran
        obtain ⟨ls₁, l₁, saved, ran⟩ := ran
        rw [run_bind_returned] at ran
        obtain ⟨ls₂, l₂, skipped, rest⟩ := ran
        obtain ⟨took, current, rfl⟩ := save_took ended saved
        obtain ⟨took', left'⟩ := inclinenumber_took (current.trans here) skipped
        have both := took.trans took'
        have passed (ls₃ : LexState N) (same : ls₃ = if comment = true then { ls₂ with buff := [] } else ls₂) :
            Passed ls l₁ (lineBreak c l₁) ls₃ l₂ ∧ (comment = false → ls₃.buff = ls.buff ++ [byte '\n']) := by
          cases comment with
          | true =>
            rw [same]
            exact ⟨⟨both.upcoming, both.decpoint, both.ended⟩, by rintro ⟨⟩⟩
          | false =>
            rw [same]
            exact ⟨both.toPassed, fun _ => both.buff⟩
        obtain ⟨passed, saves⟩ := passed _ rfl
        obtain ⟨s, enclosed⟩ := inductionHypothesis passed.ended rest
        have isLine' := (isBreak_iff c).mpr isLine
        have after : afterBreak c l₁ = s ++ closeBracket n ++ upcoming ls' l' := by
          rw [← enclosed.upcoming]
          apply (List.append_right_inj (lineBreak c l₁)).mp
          rw [← passed.upcoming, upcoming_some here, lineBreak_afterBreak]
        exact ⟨_, enclosed.prepend passed saves (enclosed.noCloser.lineBreak isLine' l₁) (normalized_lineBreak isLine' after)⟩
      rw [if_neg isLine, run_bind_returned] at ran
      obtain ⟨ls₁, l₁, moved, rest⟩ := ran
      have passed : Passed ls l [c] ls₁ l₁ ∧ (comment = false → ls₁.buff = ls.buff ++ [c]) := by
        cases comment with
        | true => exact ⟨(next_took here moved).toPassed, by rintro ⟨⟩⟩
        | false =>
          have took := saveAndNext_took here moved
          exact ⟨took.toPassed, fun _ => took.buff⟩
      obtain ⟨passed, saves⟩ := passed
      obtain ⟨s, enclosed⟩ := inductionHypothesis passed.ended rest
      have plain : isBreak c = false := by rwa [← Bool.not_eq_true, isBreak_iff]
      exact ⟨_, enclosed.prepend passed saves (enclosed.noCloser.cons closes) (normalized_plain plain s)⟩

/-- `read_long_string` on the second half of the opening bracket. -/
theorem readLongString_took {comment : Bool} {n : Nat} {ts : TString} (here : ls.current = some (byte '['))
    (opened : comment = false → ls.buff = byte '[' :: List.replicate n (byte '='))
    (ran : (readLongString fuel ls comment n).run l = .ok ((ts, ls'), l')) :
    ∃ s, Passed ls l (byte '[' :: (s ++ closeBracket n)) ls' l' ∧ NoCloser n s ∧
      (comment = false → ts = normalized (dropBreak s)) := by
  simp only [readLongString, run_bind_returned] at ran
  obtain ⟨ls₁, l₁, moved, ls₂, l₂, skipped, ls₃, l₃, looped, done⟩ := ran
  split at done
  case isFalse => cases done
  obtain ⟨same, rfl⟩ := run_done.mp done
  obtain ⟨rfl, rfl⟩ := Prod.mk.inj same
  have first := saveAndNext_took here moved
  -- the line break at the start is not in the buffer
  have started : ∃ s₀, Took ls₁ l₁ s₀ [] ls₂ l₂ ∧ ∀ s, Enclosed comment n ls₂ l₂ s ls' l' →
      NoCloser n (s₀ ++ s) ∧ dropBreak (s₀ ++ s) = s := by
    cases current : ls₁.current with
    | none =>
      rw [if_neg (by simp [LexState.currIsNewline, LexState.currentIs, current])] at skipped
      obtain ⟨rfl, rfl⟩ := run_done.mp skipped
      refine ⟨[], .nothing first.ended, fun s enclosed => ?_⟩
      have head := enclosed.current
      rw [current] at head
      cases s <;> cases head
    | some c =>
      have test : ls₁.currIsNewline = isBreak c := by simp [LexState.currIsNewline, LexState.currentIs, current, isBreak]
      rw [test] at skipped
      cases isLine : isBreak c with
      | true =>
        rw [isLine, if_pos rfl] at skipped
        obtain ⟨took, left⟩ := inclinenumber_took current skipped
        refine ⟨lineBreak c l₁, took, fun s enclosed => ?_⟩
        rw [enclosed.upcoming] at left
        exact ⟨enclosed.noCloser.lineBreak isLine l₁, dropBreak_lineBreak isLine left.symm⟩
      | false =>
        rw [isLine, if_neg (by simp)] at skipped
        obtain ⟨rfl, rfl⟩ := run_done.mp skipped
        refine ⟨[], .nothing first.ended, fun s enclosed => ⟨enclosed.noCloser, ?_⟩⟩
        have head := enclosed.current
        rw [current] at head
        cases s with
        | nil => rfl
        | cons e s =>
          obtain rfl := Option.some.inj head
          simp [dropBreak, isLine]
  obtain ⟨s₀, took₀, drops⟩ := started
  obtain ⟨s, enclosed⟩ := longStringLoop_took took₀.ended looped
  obtain ⟨noCloser, dropped⟩ := drops s enclosed
  refine ⟨s₀ ++ s, ?_, noCloser, fun isString => ?_⟩
  · have passed := (first.toPassed.trans took₀.toPassed).trans enclosed.toPassed
    simpa using passed
  · have opening : ls₂.buff = openBracket n := by
      simp [took₀.buff, first.buff, opened isString, openBracket]
    have start : (openBracket n).length = 2 + n := by
      simp only [openBracket, List.length_cons, List.length_append, List.length_replicate, List.length_nil]
      omega
    have finish : (closeBracket n).length = 2 + n := by
      simp only [closeBracket, List.length_cons, List.length_append, List.length_replicate, List.length_nil]
      omega
    have whole : ls'.buff.length - 2 * (2 + n) = (normalized s).length := by
      rw [enclosed.buff isString, opening]
      simp only [List.length_append, start, finish]
      omega
    rw [dropped, Int.toNat_natCast, whole, enclosed.buff isString, opening, ← start, List.drop_left, List.take_left]

/-! ## Quoted strings -/

/-- The number that some decimal digits stand for, after `c`. -/
def decimalFrom (c : Nat) (ds : List UInt8) : Nat := ds.foldl (fun c d => 10 * c + (d.toNat - (byte '0').toNat)) c

/-- What may follow a `\`, and the character that it stands for. -/
inductive Escape : (text : List UInt8) → (value : UInt8) → Prop where
  | letter {e c : UInt8} : escapes.lookup e = some c → Escape [e] c
  | line {c : UInt8} {l : List UInt8} : isBreak c = true → Escape (lineBreak c l) (byte '\n')
  | same {c : UInt8} : escapes.lookup c = none → isBreak c = false → isdigit c = false → Escape [c] c
  | decimal {ds : List UInt8} : ds ≠ [] → ds.length ≤ 3 → ds.all isdigit = true → decimalFrom 0 ds ≤ 255 →
      Escape ds (UInt8.ofNat (decimalFrom 0 ds))

/-- The text between quotes, and the string that it stands for. -/
inductive Quoted (del : UInt8) : (text value : List UInt8) → Prop where
  | nil : Quoted del [] []
  | char {c : UInt8} {text value : List UInt8} : c ≠ del → c ≠ backslash → isBreak c = false → Quoted del text value →
      Quoted del (c :: text) (c :: value)
  /-- a decimal escape takes as many digits as it can -/
  | escape {c : UInt8} {esc text value : List UInt8} : Escape esc c →
      (esc.all isdigit = true → esc.length < 3 → ∀ d, text.head? = some d → isdigit d = false) → Quoted del text value →
      Quoted del (backslash :: (esc ++ text)) (c :: value)

theorem decimalEscape_took {left n n' : Nat} (ended : Ended ls l) (ran : (decimalEscape left ls n).run l = .ok ((n', ls'), l')) :
    ∃ ds, Took ls l ds [] ls' l' ∧ n' = decimalFrom n ds ∧ ds.length ≤ left ∧ ds.all isdigit = true ∧
      (ds.length < left → ∀ d, ls'.current = some d → isdigit d = false) := by
  induction left generalizing ls l n with
  | zero =>
    obtain ⟨same, rfl⟩ := run_done.mp ran
    obtain ⟨rfl, rfl⟩ := Prod.mk.inj same
    exact ⟨[], .nothing ended, rfl, Nat.le_refl 0, rfl, fun more => absurd more (Nat.lt_irrefl 0)⟩
  | succ left inductionHypothesis =>
    rw [decimalEscape] at ran
    cases here : ls.current with
    | none =>
      rw [if_neg (by simp [LexState.currentIs, here])] at ran
      obtain ⟨same, rfl⟩ := run_done.mp ran
      obtain ⟨rfl, rfl⟩ := Prod.mk.inj same
      refine ⟨[], .nothing ended, rfl, Nat.zero_le _, rfl, fun _ d current => ?_⟩
      rw [here] at current
      cases current
    | some d =>
      cases digit : isdigit d with
      | false =>
        rw [if_neg (by simp [LexState.currentIs, here, digit])] at ran
        obtain ⟨same, rfl⟩ := run_done.mp ran
        obtain ⟨rfl, rfl⟩ := Prod.mk.inj same
        refine ⟨[], .nothing ended, rfl, Nat.zero_le _, rfl, fun _ e current => ?_⟩
        rw [here] at current
        rwa [← Option.some.inj current]
      | true =>
        rw [if_pos (by simp [LexState.currentIs, here, digit])] at ran
        simp only [run_bind_returned] at ran
        obtain ⟨ls₁, l₁, moved, rest⟩ := ran
        have first := next_took here moved
        have char : ls.currentChar = d := by simp [LexState.currentChar, here]
        rw [char] at rest
        obtain ⟨ds, took, rfl, few, digits, stops⟩ := inductionHypothesis first.ended rest
        exact ⟨d :: ds, first.trans took, rfl, Nat.succ_le_succ few, by simp [digit, digits],
          fun more => stops (Nat.lt_of_succ_lt_succ more)⟩

theorem escapes_notDigit (digit : isdigit d = true) : escapes.lookup d = none := by
  have every : ∀ n < 256, isdigit (UInt8.ofNat n) = true → escapes.lookup (UInt8.ofNat n) = none := by decide +kernel
  have same := every d.toNat d.toNat_lt
  rw [UInt8.ofNat_toNat] at same
  exact same digit

theorem readEscape_took (here : ls.current = some d) (ran : (readEscape ls).run l = .ok (ls', l')) :
    ∃ esc c, Took ls l esc [c] ls' l' ∧ Escape esc c ∧
      (esc.all isdigit = true → esc.length < 3 → ∀ e, ls'.current = some e → isdigit e = false) := by
  rw [readEscape, here] at ran
  simp only at ran
  have ended := ended_of_some here l
  cases letter : escapes.lookup d with
  | some c =>
    rw [letter] at ran
    simp only [run_bind_returned] at ran
    obtain ⟨ls₁, l₁, saved, moved⟩ := ran
    obtain ⟨took, current, rfl⟩ := save_took ended saved
    have notDigit : isdigit d = false := by
      cases digit : isdigit d with
      | false => rfl
      | true =>
        rw [escapes_notDigit digit] at letter
        cases letter
    exact ⟨[d], c, took.trans (next_took (current.trans here) moved), .letter letter, by simp [notDigit]⟩
  | none =>
    rw [letter] at ran
    simp only at ran
    by_cases isLine : d = byte '\n' ∨ d = byte '\r'
    · rw [if_pos isLine, run_bind_returned] at ran
      obtain ⟨ls₁, l₁, saved, skipped⟩ := ran
      obtain ⟨took, current, rfl⟩ := save_took ended saved
      obtain ⟨took', -⟩ := inclinenumber_took (current.trans here) skipped
      refine ⟨lineBreak d l₁, byte '\n', took.trans took', .line ((isBreak_iff d).mpr isLine), fun digits => ?_⟩
      have digit : isdigit d = true := by
        cases l₁ with
        | nil => simpa [lineBreak] using digits
        | cons e l =>
          simp only [lineBreak] at digits
          split at digits <;> simp at digits <;> simp [digits]
      obtain rfl | rfl := isLine <;> cases digit
    · rw [if_neg isLine] at ran
      have plain : isBreak d = false := by rwa [← Bool.not_eq_true, isBreak_iff]
      cases digit : isdigit d with
      | false =>
        rw [digit, if_pos (by simp)] at ran
        exact ⟨[d], d, saveAndNext_took here ran, .same letter plain digit, by simp [digit]⟩
      | true =>
        rw [digit, if_neg (by simp), run_bind_returned] at ran
        obtain ⟨⟨n, ls₁⟩, l₁, converted, rest⟩ := ran
        obtain ⟨ds, took, rfl, few, digits, stops⟩ := decimalEscape_took ended converted
        simp only at rest
        split at rest
        · exact absurd rest (lexerror_run _ _)
        · next small =>
          obtain ⟨took', current, rfl⟩ := save_took took.ended rest
          have some : ds ≠ [] := by
            rintro rfl
            have same := took.upcoming
            rw [List.nil_append] at same
            have current := stops (by simp) d (by rw [current_of_upcoming same.symm, upcoming_some here]; rfl)
            rw [digit] at current
            cases current
          refine ⟨ds, _, by simpa using took.trans took', .decimal some few digits (Nat.le_of_not_lt small), fun _ short e head => ?_⟩
          rw [current] at head
          exact stops short e head

theorem stringLoop_took {del : UInt8} {left : Nat} (ended : Ended ls l)
    (ran : (stringLoop del left ls).run l = .ok (ls', l')) :
    ∃ text value, Took ls l text value ls' l' ∧ ls'.current = some del ∧ Quoted del text value := by
  induction left generalizing ls l with
  | zero => cases ran
  | succ left inductionHypothesis =>
    rw [stringLoop] at ran
    split at ran
    · next closed =>
      obtain ⟨rfl, rfl⟩ := run_done.mp ran
      exact ⟨[], [], .nothing ended, closed, .nil⟩
    · next inside =>
      cases here : ls.current with
      | none =>
        rw [here] at ran
        exact absurd ran (lexerror_run _ _)
      | some c =>
        rw [here] at ran inside
        simp only at ran
        by_cases isLine : c = byte '\n' ∨ c = byte '\r'
        · rw [if_pos isLine] at ran
          exact absurd ran (lexerror_run _ _)
        rw [if_neg isLine] at ran
        by_cases escape : c = backslash
        · rw [if_pos escape] at ran
          simp only [run_bind_returned] at ran
          obtain ⟨ls₁, l₁, moved, ls₂, l₂, escaped, rest⟩ := ran
          have first := next_took here moved
          cases current : ls₁.current with
          | none =>
            -- the next iteration finds the end of the stream
            rw [readEscape, current] at escaped
            obtain ⟨rfl, rfl⟩ := run_done.mp escaped
            obtain ⟨text, value, took, closed, -⟩ := inductionHypothesis first.ended rest
            have nothing := took.upcoming
            rw [upcoming_some closed, upcoming, current] at nothing
            simp at nothing
          | some d =>
            obtain ⟨esc, v, took, isEscape, stops⟩ := readEscape_took current escaped
            obtain ⟨text, value, took', closed, quoted⟩ := inductionHypothesis took.ended rest
            refine ⟨backslash :: (esc ++ text), v :: value, ?_, closed, .escape isEscape (fun digits short e head => ?_) quoted⟩
            · rw [← escape]
              exact (first.trans took).trans took'
            · refine stops digits short e ?_
              rw [current_of_upcoming took'.upcoming]
              cases text with
              | nil => cases head
              | cons f text => exact head
        · rw [if_neg escape, run_bind_returned] at ran
          obtain ⟨ls₁, l₁, moved, rest⟩ := ran
          have first := saveAndNext_took here moved
          obtain ⟨text, value, took, closed, quoted⟩ := inductionHypothesis first.ended rest
          have plain : isBreak c = false := by rwa [← Bool.not_eq_true, isBreak_iff]
          exact ⟨c :: text, c :: value, first.trans took, closed, .char (fun same => inside (by rw [same])) escape plain quoted⟩

theorem readString_took {del : UInt8} {ts : TString} (here : ls.current = some del) (empty : ls.buff = []) (ran : (readString fuel ls del).run l = .ok ((ts, ls'), l')) :
    ∃ text, Passed ls l (del :: (text ++ [del])) ls' l' ∧ Quoted del text ts := by
  simp only [readString, run_bind_returned] at ran
  obtain ⟨ls₁, l₁, moved, ls₂, l₂, looped, ls₃, l₃, moved', done⟩ := ran
  obtain ⟨same, rfl⟩ := run_done.mp done
  obtain ⟨rfl, rfl⟩ := Prod.mk.inj same
  have first := saveAndNext_took here moved
  obtain ⟨text, value, took, closed, quoted⟩ := stringLoop_took first.ended looped
  have whole := (first.trans took).trans (saveAndNext_took closed moved')
  refine ⟨text, by simpa using whole.toPassed, ?_⟩
  have buff : ls'.buff = del :: (value ++ [del]) := by simpa [empty] using whole.buff
  have inner : (ls'.buff.drop 1).take (ls'.buff.length - 2) = value := by
    simp [buff]
  rwa [inner]

/-! ## Blanks and comments -/

/-- What `glex` skips before it comes to `rest`. -/
inductive Blanks : (skipped rest : List UInt8) → Prop where
  | none {rest : List UInt8} : Blanks [] rest
  | space {c : UInt8} {skipped rest : List UInt8} : isspace c = true → Blanks skipped rest → Blanks (c :: skipped) rest
  /-- a short comment, up to the end of the line -/
  | line {body skipped rest : List UInt8} : (∀ c ∈ body, isBreak c = false) →
      (∀ c, (skipped ++ rest).head? = some c → isBreak c = true) → (∀ n, ¬ openBracket n <+: body ++ (skipped ++ rest)) →
      Blanks skipped rest → Blanks (byte '-' :: byte '-' :: (body ++ skipped)) rest
  | long {n : Nat} {body skipped rest : List UInt8} : NoCloser n body → Blanks skipped rest →
      Blanks (byte '-' :: byte '-' :: (openBracket n ++ body ++ closeBracket n ++ skipped)) rest

theorem skipLine_passed (ended : Ended ls l) (ran : (skipLine fuel ls).run l = .ok (ls', l')) :
    ∃ body, Took ls l body [] ls' l' ∧ (∀ c ∈ body, isBreak c = false) ∧ ∀ c, ls'.current = some c → isBreak c = true := by
  induction fuel generalizing ls l with
  | zero => cases ran
  | succ fuel inductionHypothesis =>
    rw [skipLine] at ran
    cases here : ls.current with
    | none =>
      rw [if_neg (by simp [here])] at ran
      obtain ⟨rfl, rfl⟩ := run_done.mp ran
      refine ⟨[], .nothing ended, by simp, fun c current => ?_⟩
      rw [here] at current
      cases current
    | some c =>
      have test : ls.currIsNewline = isBreak c := by simp [LexState.currIsNewline, LexState.currentIs, here, isBreak]
      cases isLine : isBreak c with
      | true =>
        rw [if_neg (by simp [test, isLine])] at ran
        obtain ⟨rfl, rfl⟩ := run_done.mp ran
        refine ⟨[], .nothing ended, by simp, fun d current => ?_⟩
        rw [here] at current
        rwa [← Option.some.inj current]
      | false =>
        rw [if_pos (by simp [test, isLine, here]), run_bind_returned] at ran
        obtain ⟨ls₁, l₁, moved, rest⟩ := ran
        have first := next_took here moved
        obtain ⟨body, took, plain, stops⟩ := inductionHypothesis first.ended rest
        exact ⟨c :: body, first.trans took, by simpa [isLine] using plain, stops⟩

/-- A bracket and some `=` are a long bracket only with another bracket after them. -/
theorem openBracket_starts {n k : Nat} {s : List UInt8} (starts : openBracket n <+: byte '[' :: (List.replicate k (byte '=') ++ s))
    (notSign : s.head? ≠ some (byte '=')) : s.head? = some (byte '[') := by
  cases s with
  | nil =>
    have among : byte '[' ∈ List.replicate k (byte '=') := by
      have tails := (List.cons_prefix_cons.mp starts).2
      rw [List.append_nil] at tails
      exact tails.subset (by simp)
    exact absurd (List.eq_of_mem_replicate among) (by decide)
  | cons d s => rw [(bracket_starts (by simpa using notSign) starts (by decide)).2, List.head?_cons]

/-- A comment, after its `--`. -/
theorem readComment_passed (ended : Ended ls l) (empty : ls.buff = []) (ran : (readComment fuel ls).run l = .ok (ls', l')) :
    ls'.buff = [] ∧ ((∃ body, Passed ls l body ls' l' ∧ (∀ c ∈ body, isBreak c = false) ∧
        (∀ c, ls'.current = some c → isBreak c = true) ∧ ∀ n, ¬ openBracket n <+: upcoming ls l) ∨
      ∃ n body, Passed ls l (openBracket n ++ body ++ closeBracket n) ls' l' ∧ NoCloser n body) := by
  rw [readComment] at ran
  by_cases opens : ls.current = some (byte '[')
  · rw [if_pos opens, run_bind_returned] at ran
    obtain ⟨⟨sep, ls₁⟩, l₁, skipped, ran⟩ := ran
    obtain ⟨k, isSep, took, stops⟩ := skipSep_took opens skipped
    simp only at ran
    have passed : Passed ls l (byte '[' :: List.replicate k (byte '=')) { ls₁ with buff := [] } l₁ :=
      ⟨took.upcoming, took.decpoint, took.ended⟩
    split at ran
    · next long =>
      have again : ls₁.current = some (byte '[') := by
        by_contra other
        rw [if_neg other] at isSep
        omega
      rw [if_pos again] at isSep
      subst isSep
      simp only [run_bind_returned] at ran
      obtain ⟨⟨ts, ls₂⟩, l₂, read, done⟩ := ran
      obtain ⟨rfl, rfl⟩ := run_done.mp done
      obtain ⟨body, passed', noCloser, -⟩ := @readLongString_took N { ls₁ with buff := [] } _ _ _ _ _ _ _ again (fun isString => by cases isString) read
      have whole := passed.trans passed'
      refine ⟨rfl, .inr ⟨k, body, ⟨?_, whole.decpoint, whole.ended⟩, noCloser⟩⟩
      rw [whole.upcoming]
      simp [openBracket, upcoming]
    · next short =>
      have other : ls₁.current ≠ some (byte '[') := by
        intro again
        rw [if_pos again] at isSep
        omega
      obtain ⟨body, took', plain, lineEnds⟩ := @skipLine_passed N { ls₁ with buff := [] } _ _ _ _ passed.ended ran
      refine ⟨took'.buff, .inl ⟨_, passed.trans took'.toPassed, ?_, lineEnds, fun n starts => ?_⟩⟩
      · intro c among
        obtain among | among := List.mem_append.mp among
        · obtain rfl | among := List.mem_cons.mp among
          · rfl
          · rw [List.eq_of_mem_replicate among]
            rfl
        · exact plain c among
      · rw [took.upcoming] at starts
        have head : ls₁.current = (upcoming ls₁ l₁).head? := current_of_upcoming rfl
        rw [head] at other stops
        exact other (openBracket_starts starts stops)
  · rw [if_neg opens] at ran
    obtain ⟨body, took, plain, lineEnds⟩ := skipLine_passed ended ran
    refine ⟨by rw [took.buff, empty, List.append_nil], .inl ⟨body, took.toPassed, plain, lineEnds, fun n starts => opens ?_⟩⟩
    have head : ls.current = (upcoming ls l).head? := current_of_upcoming rfl
    rw [head]
    obtain ⟨after, whole⟩ := starts
    rw [← whole]
    rfl

/-! ## Numerals -/

/-- `dst` in the place of `src`. -/
def replaced (src dst c : UInt8) : UInt8 := if c = src then dst else c

/-- The number is the conversion of the whole text, with the decimal point that has been in use or with the one of
the locale. -/
def Converts (env : Library N) (decpoint : UInt8) (text : List UInt8) (r : N) : Prop :=
  str2d env (text.map (replaced (byte '.') decpoint)) = some r ∨
    str2d env ((text.map (replaced (byte '.') decpoint)).map (replaced decpoint env.decimalPoint)) = some r

/-- An optional exponent, without its digits. -/
inductive Exponent : List UInt8 → Prop where
  | none : Exponent []
  | mark {e : UInt8} : e ∈ bytes "Ee" → Exponent [e]
  | signed {e sign : UInt8} : e ∈ bytes "Ee" → sign ∈ bytes "+-" → Exponent [e, sign]

/-- A numeral from its first digit on. -/
inductive Numeral : List UInt8 → Prop where
  | mk {c : UInt8} {digits exponent letters : List UInt8} : isdigit c = true → digits.all isdigitOrPoint = true →
      Exponent exponent → letters.all isalnumOrUnderscore = true → Numeral (c :: (digits ++ (exponent ++ letters)))

/-- What `check_next` finds in the place of an exponent is a NUL, or a NUL is in the place of its sign. -/
def NulInExponent (s : List UInt8) : Prop := s.head? = some 0 ∨ ∃ e ∈ bytes "Ee", [e, 0] <+: s

/-- A NUL stands where `check_next` looks for an exponent or its sign, behind the digits of `s`. -/
def NulAfter (s : List UInt8) : Prop := NulInExponent (s.dropWhile isdigitOrPoint)

theorem textOf_append (noNul : 0 ∉ text) (rest : List UInt8) : textOf (text ++ 0 :: rest) = text := by
  have plain : ∀ c ∈ text, (c != 0) = true := by
    intro c among
    simp only [bne_iff_ne, ne_eq]
    rintro rfl
    exact noNul among
  rw [textOf, List.takeWhile_append_of_pos plain]
  simp

theorem replaced_noNul {src dst : UInt8} (notNul : dst ≠ 0) (noNul : 0 ∉ text) : 0 ∉ text.map (replaced src dst) := by
  intro among
  obtain ⟨c, member, same⟩ := List.mem_map.mp among
  simp only [replaced] at same
  split at same
  · exact notNul same
  · exact noNul (same ▸ member)

theorem replaced_nul {src : UInt8} (notNul : src ≠ 0) (dst : UInt8) : replaced src dst 0 = 0 := if_neg notNul.symm

/-- The number that is made of the text in the buffer takes nothing more from the stream. -/
theorem conversion_passed {env : Library N} {r : N} (point : env.decimalPoint ≠ 0) (reading : Reading ls l)
    (ran : (save ls 0 >>= fun ls =>
      match str2d env (textOf (buffreplace ls (byte '.') ls.decpoint).buff) with
      | some r => pure (r, buffreplace ls (byte '.') ls.decpoint)
      | none => trydecpoint env (buffreplace ls (byte '.') ls.decpoint)).run l = .ok ((r, ls'), l')) :
    ls'.current = ls.current ∧ l' = l ∧ Reading ls' l' := by
  rw [run_bind_returned] at ran
  obtain ⟨ls₁, l₁, saved, ran⟩ := ran
  obtain ⟨took, current, rfl⟩ := save_took reading.ended saved
  split at ran
  · obtain ⟨same, rfl⟩ := run_done.mp ran
    obtain ⟨rfl, rfl⟩ := Prod.mk.inj same
    exact ⟨current, rfl, took.ended, (took.reading reading).decpoint⟩
  · simp only [trydecpoint] at ran
    split at ran
    · obtain ⟨same, rfl⟩ := run_done.mp ran
      obtain ⟨rfl, rfl⟩ := Prod.mk.inj same
      exact ⟨current, rfl, took.ended, point⟩
    · exact absurd ran (lexerror_run _ _)

theorem conversion_converts {env : Library N} {r : N} (point : env.decimalPoint ≠ 0) (decpoint : ls.decpoint ≠ 0) (noNul : 0 ∉ ls.buff)
    (ended : Ended ls l)
    (ran : (save ls 0 >>= fun ls =>
      match str2d env (textOf (buffreplace ls (byte '.') ls.decpoint).buff) with
      | some r => pure (r, buffreplace ls (byte '.') ls.decpoint)
      | none => trydecpoint env (buffreplace ls (byte '.') ls.decpoint)).run l = .ok ((r, ls'), l')) :
    Converts env ls.decpoint ls.buff r := by
  rw [run_bind_returned] at ran
  obtain ⟨ls₁, l₁, saved, ran⟩ := ran
  obtain ⟨took, -, rfl⟩ := save_took ended saved
  have text : (buffreplace ls₁ (byte '.') ls₁.decpoint).buff = ls.buff.map (replaced (byte '.') ls.decpoint) ++ [0] := by
    simp only [buffreplace, took.buff, took.decpoint, List.map_append, List.map_cons, List.map_nil]
    rfl
  rw [text, textOf_append (replaced_noNul decpoint noNul)] at ran
  split at ran
  · next r' converted =>
    obtain ⟨same, rfl⟩ := run_done.mp ran
    obtain ⟨rfl, rfl⟩ := Prod.mk.inj same
    exact .inl converted
  · next failed =>
    have text' : (buffreplace { buffreplace ls₁ (byte '.') ls₁.decpoint with decpoint := env.decimalPoint }
        (buffreplace ls₁ (byte '.') ls₁.decpoint).decpoint env.decimalPoint).buff =
          (ls.buff.map (replaced (byte '.') ls.decpoint)).map (replaced ls.decpoint env.decimalPoint) ++ [0] := by
      rw [buffreplace]
      simp only [text, List.map_append, List.map_cons, List.map_nil]
      rw [show (buffreplace ls₁ (byte '.') ls₁.decpoint).decpoint = ls.decpoint from took.decpoint]
      exact congrArg _ (congrArg (· :: []) (replaced_nul decpoint env.decimalPoint))
    simp only [trydecpoint] at ran
    rw [text', textOf_append (replaced_noNul point (replaced_noNul decpoint noNul))] at ran
    split at ran
    · next r' converted =>
      obtain ⟨same, rfl⟩ := run_done.mp ran
      obtain ⟨rfl, rfl⟩ := Prod.mk.inj same
      exact .inr converted
    · exact absurd ran (lexerror_run _ _)

/-- The characters up to where `read_numeral` looks for an exponent. -/
theorem dropWhile_upcoming {f : UInt8 → Bool} (took : Took ls l ((upcoming ls l).takeWhile f) saved ls' l') :
    (upcoming ls l).dropWhile f = upcoming ls' l' := by
  have whole := took.upcoming
  nth_rewrite 1 [← @List.takeWhile_append_dropWhile _ f (upcoming ls l)] at whole
  exact (List.append_right_inj _).mp whole

theorem not_nulInExponent {e : UInt8} {s : List UInt8} (mark : e ∈ bytes "Ee") (next : s.head? ≠ some 0) :
    ¬ NulInExponent (e :: s) := by
  rintro (first | ⟨e', -, starts⟩)
  · obtain rfl := Option.some.inj first
    exact absurd mark (by decide)
  · obtain ⟨after, whole⟩ := (List.cons_prefix_cons.mp starts).2
    rw [← whole] at next
    exact next rfl

/-- An exponent, or a NUL in the place of one of its characters. -/
theorem exponent_took {found : Bool} (ended : Ended ls l)
    (ran : (checkNext ls "Ee" >>= fun r => if r.1 then checkNext r.2 "+-" else pure (false, r.2)).run l = .ok ((found, ls'), l')) :
    ∃ exponent, Took ls l exponent exponent ls' l' ∧
      (0 ∈ exponent ∧ NulInExponent (upcoming ls l) ∨ Exponent exponent ∧ ¬ NulInExponent (upcoming ls l)) := by
  rw [run_bind_returned] at ran
  obtain ⟨⟨marked, ls₁⟩, l₁, checked, ran⟩ := ran
  simp only at ran
  obtain ⟨rfl, e, here, mark, took⟩ | ⟨rfl, rfl, rfl, missing⟩ := checkNext_took (by decide) ended checked
  · rw [if_pos rfl] at ran
    have text := upcoming_some here l
    have rest : upcoming ls₁ l₁ = l := by simpa [text] using took.upcoming.symm
    rw [text]
    obtain ⟨rfl, sign, here', isSign, took'⟩ | ⟨rfl, rfl, rfl, missing⟩ := checkNext_took (by decide) took.ended ran
    · have text' : l = sign :: l₁ := by rw [← rest, upcoming_some here']
      refine ⟨[e, sign], took.trans took', ?_⟩
      obtain mark | rfl := mark
      · obtain isSign | rfl := isSign
        · refine .inr ⟨.signed mark isSign, not_nulInExponent mark ?_⟩
          rw [text', List.head?_cons]
          rintro ⟨⟩
          exact absurd isSign (by decide)
        · exact .inl ⟨by simp, .inr ⟨e, mark, by simp [text']⟩⟩
      · exact .inl ⟨by simp, .inl rfl⟩
    · refine ⟨[e], took, ?_⟩
      obtain mark | rfl := mark
      · refine .inr ⟨.mark mark, not_nulInExponent mark fun zero => ?_⟩
        rw [← current_of_upcoming rest] at zero
        exact (missing 0 zero).2 rfl
      · exact .inl ⟨by simp, .inl rfl⟩
  · obtain ⟨same, rfl⟩ := run_done.mp ran
    obtain ⟨-, rfl⟩ := Prod.mk.inj same
    refine ⟨[], .nothing ended, .inr ⟨.none, ?_⟩⟩
    rintro (first | ⟨e, mark, after, whole⟩)
    · rw [← current_of_upcoming rfl] at first
      exact (missing 0 first).2 rfl
    · have current : ls'.current = some e := by rw [current_of_upcoming whole.symm]; rfl
      exact (missing e current).1 mark

theorem Exponent.noNul {exponent : List UInt8} (isExponent : Exponent exponent) : 0 ∉ exponent := by
  have marks : ∀ e ∈ bytes "Ee", e ≠ 0 := by simp [bytes, byte]
  have signs : ∀ e ∈ bytes "+-", e ≠ 0 := by simp [bytes, byte]
  cases isExponent with
  | none => simp
  | mark mark => simpa using (marks _ mark).symm
  | signed mark sign => simpa using ⟨(marks _ mark).symm, (signs _ sign).symm⟩

theorem Numeral.noNul (numeral : Numeral text) : 0 ∉ text := by
  have plain {f : UInt8 → Bool} {s : List UInt8} (zero : f 0 = false) (every : s.all f = true) : 0 ∉ s := by
    intro among
    have holds := List.all_eq_true.mp every 0 among
    rw [zero] at holds
    cases holds
  cases numeral with
  | @mk c digits exponent letters digit points isExponent isLetters =>
    have first : c ≠ 0 := by
      rintro rfl
      cases digit
    simp [first.symm, plain rfl points, isExponent.noNul, plain rfl isLetters]

/-- `read_numeral` takes a numeral, unless `check_next` takes a NUL. -/
theorem readNumeral_took {env : Library N} {r : N} (point : env.decimalPoint ≠ 0) (reading : Reading ls l)
    (here : ls.current = some c) (digit : isdigit c = true) (noNul : 0 ∉ ls.buff)
    (ran : (readNumeral env fuel ls).run l = .ok ((r, ls'), l')) :
    Reading ls' l' ∧ ∃ text, upcoming ls l = text ++ upcoming ls' l' ∧
      (0 ∈ text ∧ NulAfter (upcoming ls l) ∨
        Numeral text ∧ Converts env ls.decpoint (ls.buff ++ text) r ∧ ¬ NulAfter (upcoming ls l)) := by
  rw [readNumeral, run_bind_returned] at ran
  obtain ⟨ls₁, l₁, moved, ran⟩ := ran
  rw [run_bind_returned] at ran
  obtain ⟨ls₂, l₂, points, ran⟩ := ran
  rw [run_bind_returned] at ran
  obtain ⟨⟨found, ls₃⟩, l₃, marked, ran⟩ := ran
  rw [run_bind_returned] at ran
  obtain ⟨⟨found', ls₄⟩, l₄, signed, ran⟩ := ran
  rw [run_bind_returned] at ran
  obtain ⟨ls₅, l₅, letters, ran⟩ := ran
  have first := saveAndNext_took here moved
  have digits := saveWhile_took first.ended points
  obtain ⟨exponent, took, isExponent⟩ := exponent_took digits.ended (run_bind_returned.mpr ⟨_, _, marked, signed⟩)
  have rest := saveWhile_took took.ended letters
  have whole := ((first.trans digits).trans took).trans rest
  obtain ⟨current, rfl, reading'⟩ := conversion_passed point (whole.reading reading) ran
  have after : NulAfter (upcoming ls l) ↔ NulInExponent (upcoming ls₂ l₂) := by
    have point : isdigitOrPoint c = true := by simp [isdigitOrPoint, digit]
    rw [NulAfter, first.upcoming, List.singleton_append, List.dropWhile_cons_of_pos point, dropWhile_upcoming digits]
  have left : upcoming ls' l' = upcoming ls₅ l' := by rw [upcoming, upcoming, current]
  refine ⟨reading', _, by rw [left]; exact whole.upcoming, ?_⟩
  obtain ⟨zero, absorbed⟩ | ⟨isExponent, plain⟩ := isExponent
  · exact .inl ⟨by simp [zero], after.mpr absorbed⟩
  · have numeral : Numeral (c :: ((upcoming ls₁ l₁).takeWhile isdigitOrPoint ++
        (exponent ++ (upcoming ls₄ l₄).takeWhile isalnumOrUnderscore))) :=
      .mk digit List.all_takeWhile isExponent List.all_takeWhile
    rw [show [c] ++ (upcoming ls₁ l₁).takeWhile isdigitOrPoint ++ exponent ++ (upcoming ls₄ l₄).takeWhile isalnumOrUnderscore =
      c :: ((upcoming ls₁ l₁).takeWhile isdigitOrPoint ++ (exponent ++ (upcoming ls₄ l₄).takeWhile isalnumOrUnderscore)) by simp] at whole ⊢
    refine .inr ⟨numeral, ?_, after.not.mpr plain⟩
    have converts := conversion_converts point (whole.reading reading).decpoint (by rw [whole.buff]; simp [noNul, numeral.noNul])
      whole.ended ran
    rwa [whole.buff, whole.decpoint] at converts

end Gafq.Lexer
