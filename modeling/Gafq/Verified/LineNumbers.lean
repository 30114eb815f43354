import Gafq.Verified.TokenSpelling

/-! # Line numbers

`linenumber` grows by one with every line break that the lexer takes from the stream, whether it is blank
space, the end of a comment, or a part of a comment or a string.  A line break of two characters is taken
as a whole, so that its second one is never the beginning of another line break.
-/

namespace Gafq.Lexer

open Base Program

variable {N : Type} {env : Library N} {ls ls' : LexState N} {c : UInt8} {l l' : List UInt8} {fuel : Nat}

/-! ## Line breaks of a text -/

/-- The number of line breaks: a newline, a carriage return, or the two of them in either order. -/
def lineBreaks (s : List UInt8) : Nat := (normalized s).count (byte '\n')

theorem lineBreaks_break (isLine : isBreak c = true) (s : List UInt8) :
    lineBreaks (c :: s) = lineBreaks (afterBreak c s) + 1 := by
  rw [lineBreaks, normalized_break isLine, List.count_cons_self]
  rfl

theorem lineBreaks_plain (plain : isBreak c = false) (s : List UInt8) : lineBreaks (c :: s) = lineBreaks s := by
  have notLine : c ≠ byte '\n' := by
    rintro rfl
    cases plain
  rw [lineBreaks, normalized_plain plain, List.count_cons_of_ne notLine]
  rfl

/-- The text before `rest` consists of characters that are no line breaks, and of `n` whole line breaks. -/
inductive Lines : (start rest : List UInt8) → (n : Nat) → Prop where
  | nothing {s : List UInt8} : Lines s s 0
  | plain {c : UInt8} {s rest : List UInt8} {n : Nat} : isBreak c = false → Lines s rest n → Lines (c :: s) rest n
  | line {c : UInt8} {s rest : List UInt8} {n : Nat} : isBreak c = true → Lines (afterBreak c s) rest n →
      Lines (c :: s) rest (n + 1)

theorem Lines.trans {start middle rest : List UInt8} {n m : Nat} (first : Lines start middle n) (second : Lines middle rest m) :
    Lines start rest (n + m) := by
  induction first with
  | nothing => simpa using second
  | plain isPlain _ inductionHypothesis => exact .plain isPlain (inductionHypothesis second)
  | @line c s rest n isLine _ inductionHypothesis =>
    rw [Nat.add_right_comm]
    exact .line isLine (inductionHypothesis second)

/-- A line break that is taken as a whole. -/
theorem lineBreaks_lineBreak (isLine : isBreak c = true) {s text rest : List UInt8} (left : afterBreak c s = text ++ rest) :
    ∃ text', c :: s = text' ++ rest ∧ lineBreaks text' = lineBreaks text + 1 := by
  cases s with
  | nil =>
    obtain ⟨rfl, rfl⟩ := List.append_eq_nil_iff.mp left.symm
    exact ⟨[c], rfl, lineBreaks_break isLine []⟩
  | cons d s =>
    by_cases pair : isBreak d = true ∧ d ≠ c
    · rw [afterBreak, if_pos pair] at left
      refine ⟨c :: d :: text, by rw [left]; rfl, ?_⟩
      rw [lineBreaks_break isLine, afterBreak, if_pos pair]
    · rw [afterBreak, if_neg pair] at left
      refine ⟨c :: text, by rw [left]; rfl, ?_⟩
      have single : afterBreak c text = text := by
        cases text with
        | nil => rfl
        | cons e text =>
          obtain ⟨rfl, -⟩ := List.cons.inj left
          rw [afterBreak, if_neg pair]
      rw [lineBreaks_break isLine, single]

/-- The line breaks of a text are those that have been taken, and those that are left. -/
theorem Lines.taken {start rest : List UInt8} {n : Nat} (lines : Lines start rest n) :
    (∃ text, start = text ++ rest ∧ lineBreaks text = n) ∧ lineBreaks start = n + lineBreaks rest := by
  induction lines with
  | nothing => exact ⟨⟨[], rfl, rfl⟩, (Nat.zero_add _).symm⟩
  | @plain c s rest n isPlain _ inductionHypothesis =>
    obtain ⟨⟨text, rfl, counted⟩, total⟩ := inductionHypothesis
    exact ⟨⟨c :: text, rfl, (lineBreaks_plain isPlain text).trans counted⟩, (lineBreaks_plain isPlain _).trans total⟩
  | @line c s rest n isLine _ inductionHypothesis =>
    obtain ⟨⟨text, left, counted⟩, total⟩ := inductionHypothesis
    obtain ⟨text', whole, one⟩ := lineBreaks_lineBreak isLine left
    refine ⟨⟨text', whole, by rw [one, counted]⟩, ?_⟩
    rw [lineBreaks_break isLine, total]
    omega

/-! ## What the lexer takes -/

/-- The lexer has taken whole line breaks from the stream and has counted them. -/
def Counts (ls : LexState N) (l : List UInt8) (ls' : LexState N) (l' : List UInt8) : Prop :=
  ∃ n, Lines (upcoming ls l) (upcoming ls' l') n ∧ ls'.linenumber = ls.linenumber + n

/-- The lexer has not moved. -/
structure Still (ls : LexState N) (l : List UInt8) (ls' : LexState N) (l' : List UInt8) : Prop where
  rest : l' = l
  current : ls'.current = ls.current
  lines : ls'.linenumber = ls.linenumber

theorem Counts.nothing : Counts ls l ls l := ⟨0, .nothing, rfl⟩

theorem Still.counts (still : Still ls l ls' l') : Counts ls l ls' l' := by
  obtain ⟨rfl, current, lines⟩ := still
  refine ⟨0, ?_, lines⟩
  rw [upcoming, upcoming, current]
  exact .nothing

theorem Counts.trans {ls'' : LexState N} {l'' : List UInt8} (first : Counts ls l ls' l') (second : Counts ls' l' ls'' l'') :
    Counts ls l ls'' l'' := by
  obtain ⟨n, lines, counted⟩ := first
  obtain ⟨m, lines', counted'⟩ := second
  exact ⟨n + m, lines.trans lines', by omega⟩

/-- The current character is no line break. -/
def Plain (ls : LexState N) : Prop := ∃ c, ls.current = some c ∧ isBreak c = false

theorem Still.plain (still : Still ls l ls' l') (plain : Plain ls) : Plain ls' := by
  obtain ⟨c, here, isPlain⟩ := plain
  exact ⟨c, still.current.trans here, isPlain⟩

theorem next_counts (plain : Plain ls) : (next ls).Yields l (Counts ls l) := by
  obtain ⟨c, here, isPlain⟩ := plain
  intro ls' l' ran
  have took := (next_took here ran).upcoming
  rw [List.singleton_append] at took
  rw [next_run] at ran
  obtain ⟨rfl, rfl⟩ := Prod.mk.inj (Except.ok.inj ran)
  refine ⟨0, ?_, rfl⟩
  rw [took]
  exact .plain isPlain .nothing

theorem save_still (c : UInt8) : (save ls c).Yields l (Still ls l) := by
  unfold save
  refine Yields.ite (fun _ => Yields.ite (fun _ => .fail) fun _ => ?_) fun _ => ?_
  · exact .done ⟨rfl, rfl, rfl⟩
  · exact .done ⟨rfl, rfl, rfl⟩

theorem saveAndNext_counts (plain : Plain ls) : (saveAndNext ls).Yields l (Counts ls l) := by
  unfold saveAndNext
  refine (save_still _).bind ?_
  intro ls₁ l₁ still
  exact (next_counts (still.plain plain)).weaken fun _ _ counts => still.counts.trans counts

theorem lexerror_yields {α : Type} {post : α → List UInt8 → Prop} (msg : String) (token : Nat) :
    (lexerror ls msg token).Yields l post := fun _ _ ran => absurd ran (lexerror_run msg token)

/-- The one place where lines are counted. -/
theorem inclinenumber_counted (here : ls.current = some c) (isLine : isBreak c = true) :
    (inclinenumber ls).Yields l (Counts ls l) := by
  intro ls' l' ran
  obtain ⟨-, left⟩ := inclinenumber_took here ran
  rw [inclinenumber_counts here] at ran
  split at ran
  · exact absurd ran (syntaxerror_run _)
  · obtain ⟨rfl, rfl⟩ := run_done.mp ran
    refine ⟨1, ?_, rfl⟩
    rw [upcoming_some here, left]
    exact .line isLine .nothing

/-! ## Loops -/

theorem plain_of_is {f : UInt8 → Bool} (noBreak : ∀ c, f c = true → isBreak c = false) (holds : ls.currentIs f = true) :
    Plain ls := by
  cases here : ls.current with
  | none => simp [LexState.currentIs, here] at holds
  | some c =>
    rw [LexState.currentIs, here] at holds
    exact ⟨c, here, noBreak c holds⟩

theorem checkNext_counts {set : String} (missing : 255 ∉ bytes set) (noBreak : (bytes set).any isBreak = false) :
    (checkNext ls set).Yields l fun r l' => Counts ls l r.2 l' := by
  refine Yields.ite (fun among => ?_) fun _ => .done .nothing
  have plain : Plain ls := by
    cases here : ls.current with
    | none =>
      simp only [LexState.currentChar, here, Option.getD_none, List.mem_append, List.mem_singleton] at among
      obtain among | zero := among
      · exact absurd among missing
      · cases zero
    | some c =>
      simp only [LexState.currentChar, here, Option.getD_some, List.mem_append, List.mem_singleton] at among
      obtain among | rfl := among
      · exact ⟨c, here, by simpa using List.any_eq_false.mp noBreak c among⟩
      · exact ⟨0, here, rfl⟩
  refine (saveAndNext_counts plain).bind ?_
  exact fun _ _ counts => .done counts

theorem saveWhile_counts {f : UInt8 → Bool} (noBreak : ∀ c, f c = true → isBreak c = false) :
    (saveWhile f fuel ls).Yields l (Counts ls l) := by
  induction fuel generalizing ls l with
  | zero => exact .fail
  | succ fuel inductionHypothesis =>
    refine Yields.ite (fun holds => ?_) fun _ => .done .nothing
    refine (saveAndNext_counts (plain_of_is noBreak holds)).bind ?_
    exact fun ls₁ l₁ counts => inductionHypothesis.weaken fun _ _ => counts.trans

theorem skipSepLoop_counts {count : Int} (counted : 0 ≤ count) :
    (skipSepLoop fuel ls count).Yields l fun r l' => Counts ls l r.2 l' ∧ 0 ≤ r.1 := by
  induction fuel generalizing ls l count with
  | zero => exact .fail
  | succ fuel inductionHypothesis =>
    refine Yields.ite (fun isEqual => ?_) fun _ => .done ⟨.nothing, counted⟩
    refine (saveAndNext_counts ⟨_, isEqual, rfl⟩).bind ?_
    intro ls₁ l₁ counts
    refine Yields.ite (fun _ => ?_) fun _ => .fail
    refine (inductionHypothesis (by omega : 0 ≤ count + 1)).weaken ?_
    exact fun r l' done => ⟨counts.trans done.1, done.2⟩

/-- A separator that is not negative ends on the bracket that it began with. -/
theorem skipSep_counts (plain : Plain ls) :
    (skipSep fuel ls).Yields l fun r l' => Counts ls l r.2 l' ∧ (0 ≤ r.1 → Plain r.2) := by
  unfold skipSep
  refine (saveAndNext_counts plain).bind ?_
  intro ls₁ l₁ counts
  refine (skipSepLoop_counts (Int.le_refl 0)).bind ?_
  rintro ⟨count, ls₂⟩ l₂ ⟨counts', counted⟩
  refine .done ⟨counts.trans counts', fun nonneg => ?_⟩
  obtain ⟨c, here, isPlain⟩ := plain
  simp only at nonneg counted ⊢
  split at nonneg
  · next same => exact ⟨c, same.trans here, isPlain⟩
  · omega

theorem longStringLoop_counts (comment : Bool) {sep : Int} (isSep : 0 ≤ sep) {left : Nat} :
    (longStringLoop fuel comment sep left ls).Yields l (Counts ls l) := by
  induction left generalizing ls l with
  | zero => exact .fail
  | succ left inductionHypothesis =>
    have goOn : ∀ {ls' : LexState N} {l' : List UInt8}, Counts ls l ls' l' →
        (longStringLoop fuel comment sep left ls').Yields l' (Counts ls l) := by
      intro ls' l' counts
      exact inductionHypothesis.weaken fun _ _ => counts.trans
    unfold longStringLoop
    cases here : ls.current with
    | none => exact lexerror_yields _ _
    | some c =>
      simp only
      refine Yields.ite (fun isOpen => ?_) fun _ => Yields.ite (fun isClose => ?_) fun _ =>
        Yields.ite (fun isLine => ?_) fun notLine => ?_
      · subst isOpen
        refine (skipSep_counts ⟨_, here, rfl⟩).bind ?_
        rintro ⟨count, ls₁⟩ l₁ ⟨counts, bracket⟩
        refine Yields.ite (fun same => ?_) fun _ => goOn counts
        refine (saveAndNext_counts (bracket (by simp only at same ⊢; omega))).bind ?_
        intro ls₂ l₂ counts'
        exact Yields.ite (fun _ => lexerror_yields _ _) fun _ => goOn (counts.trans counts')
      · subst isClose
        refine (skipSep_counts ⟨_, here, rfl⟩).bind ?_
        rintro ⟨count, ls₁⟩ l₁ ⟨counts, bracket⟩
        refine Yields.ite (fun same => ?_) fun _ => goOn counts
        exact (saveAndNext_counts (bracket (by simp only at same ⊢; omega))).weaken fun _ _ => counts.trans
      · refine (save_still _).bind ?_
        intro ls₁ l₁ still
        refine (inclinenumber_counted (still.current.trans here) ((isBreak_iff c).mpr isLine)).bind ?_
        intro ls₂ l₂ counts
        apply goOn
        cases comment
        · exact still.counts.trans counts
        · exact still.counts.trans counts
      · have plain : Plain ls := ⟨c, here, by rwa [← Bool.not_eq_true, isBreak_iff]⟩
        have moves : (if comment = true then next ls else saveAndNext ls).Yields l (Counts ls l) :=
          Yields.ite (fun _ => next_counts plain) fun _ => saveAndNext_counts plain
        exact moves.bind fun _ _ => goOn

theorem readLongString_counts (comment : Bool) {sep : Int} (isSep : 0 ≤ sep) (plain : Plain ls) :
    (readLongString fuel ls comment sep).Yields l fun r l' => Counts ls l r.2 l' := by
  unfold readLongString
  refine (saveAndNext_counts plain).bind ?_
  intro ls₁ l₁ counts₁
  have newline : (if ls₁.currIsNewline then inclinenumber ls₁ else pure ls₁).Yields l₁ (Counts ls₁ l₁) := by
    refine Yields.ite (fun isNewline => ?_) fun _ => .done .nothing
    cases here : ls₁.current with
    | none => simp [LexState.currIsNewline, LexState.currentIs, here] at isNewline
    | some c =>
      rw [LexState.currIsNewline, LexState.currentIs, here] at isNewline
      exact inclinenumber_counted here isNewline
  refine newline.bind ?_
  intro ls₂ l₂ counts₂
  refine (longStringLoop_counts comment isSep).bind ?_
  intro ls₃ l₃ counts₃
  exact Yields.ite (fun _ => .done ((counts₁.trans counts₂).trans counts₃)) fun _ => .fail

/-! ## Strings -/

theorem isBreak_of_isdigit (c : UInt8) (digit : isdigit c = true) : isBreak c = false := by
  cases isLine : isBreak c with
  | false => rfl
  | true =>
    rw [isBreak_iff] at isLine
    obtain rfl | rfl := isLine <;> cases digit

theorem decimalEscape_counts {left n : Nat} : (decimalEscape left ls n).Yields l fun r l' => Counts ls l r.2 l' := by
  induction left generalizing ls l n with
  | zero => exact .done .nothing
  | succ left inductionHypothesis =>
    refine Yields.ite (fun isDigit => ?_) fun _ => .done .nothing
    refine (next_counts (plain_of_is isBreak_of_isdigit isDigit)).bind ?_
    exact fun ls₁ l₁ counts => inductionHypothesis.weaken fun _ _ => counts.trans

theorem isBreak_of_escapes {e v : UInt8} (isEscape : escapes.lookup e = some v) : isBreak e = false := by
  cases isLine : isBreak e with
  | false => rfl
  | true =>
    rw [isBreak_iff] at isLine
    obtain rfl | rfl := isLine <;> cases isEscape

theorem readEscape_counts : (readEscape ls).Yields l (Counts ls l) := by
  unfold readEscape
  cases here : ls.current with
  | none => exact .done .nothing
  | some e =>
    simp only
    cases isEscape : escapes.lookup e with
    | some v =>
      refine (save_still v).bind ?_
      intro ls₁ l₁ still
      have plain := still.plain ⟨e, here, isBreak_of_escapes isEscape⟩
      exact (next_counts plain).weaken fun _ _ => still.counts.trans
    | none =>
      refine Yields.ite (fun isLine => ?_) fun notLine => Yields.ite (fun _ => ?_) fun _ => ?_
      · refine (save_still _).bind ?_
        intro ls₁ l₁ still
        have counts := inclinenumber_counted (still.current.trans here) ((isBreak_iff e).mpr isLine) (l := l₁)
        exact counts.weaken fun _ _ => still.counts.trans
      · exact saveAndNext_counts ⟨e, here, by rwa [← Bool.not_eq_true, isBreak_iff]⟩
      · refine decimalEscape_counts.bind ?_
        rintro ⟨n, ls₁⟩ l₁ counts
        refine Yields.ite (fun _ => lexerror_yields _ _) fun _ => ?_
        exact (save_still _).weaken fun _ _ still => counts.trans still.counts

theorem stringLoop_counts {del : UInt8} {left : Nat} :
    (stringLoop del left ls).Yields l fun ls' l' => Counts ls l ls' l' ∧ ls'.current = some del := by
  induction left generalizing ls l with
  | zero => exact .fail
  | succ left inductionHypothesis =>
    have goOn : ∀ {ls' : LexState N} {l' : List UInt8}, Counts ls l ls' l' →
        (stringLoop del left ls').Yields l' fun ls'' l'' => Counts ls l ls'' l'' ∧ ls''.current = some del := by
      intro ls' l' counts
      exact inductionHypothesis.weaken fun _ _ done => ⟨counts.trans done.1, done.2⟩
    unfold stringLoop
    refine Yields.ite (fun isEnd => .done ⟨.nothing, isEnd⟩) fun _ => ?_
    cases here : ls.current with
    | none => exact lexerror_yields _ _
    | some c =>
      simp only
      refine Yields.ite (fun _ => lexerror_yields _ _) fun notLine => ?_
      have plain : Plain ls := ⟨c, here, by rwa [← Bool.not_eq_true, isBreak_iff]⟩
      refine Yields.ite (fun _ => ?_) fun _ => ?_
      · refine (next_counts plain).bind ?_
        intro ls₁ l₁ counts₁
        refine readEscape_counts.bind ?_
        exact fun ls₂ l₂ counts₂ => goOn (counts₁.trans counts₂)
      · exact (saveAndNext_counts plain).bind fun _ _ => goOn

theorem readString_counts {del : UInt8} (here : ls.current = some del) (isPlain : isBreak del = false) :
    (readString fuel ls del).Yields l fun r l' => Counts ls l r.2 l' := by
  unfold readString
  refine (saveAndNext_counts ⟨del, here, isPlain⟩).bind ?_
  intro ls₁ l₁ counts₁
  refine stringLoop_counts.bind ?_
  rintro ls₂ l₂ ⟨counts₂, here₂⟩
  refine (saveAndNext_counts ⟨del, here₂, isPlain⟩).bind ?_
  exact fun ls₃ l₃ counts₃ => .done ((counts₁.trans counts₂).trans counts₃)

/-! ## Numerals and words -/

/-- A class of characters without line breaks. -/
theorem isBreak_of {f : UInt8 → Bool} (newline : f (byte '\n') = false) (carriageReturn : f (byte '\r') = false)
    (c : UInt8) (holds : f c = true) : isBreak c = false := by
  cases isLine : isBreak c with
  | false => rfl
  | true =>
    rw [isBreak_iff] at isLine
    obtain rfl | rfl := isLine
    · rw [newline] at holds
      cases holds
    · rw [carriageReturn] at holds
      cases holds

theorem trydecpoint_counts : (trydecpoint env ls).Yields l fun r l' => Counts ls l r.2 l' := by
  unfold trydecpoint
  simp only
  split
  · exact .done ⟨0, .nothing, rfl⟩
  · exact lexerror_yields _ _

theorem readNumeral_counts (plain : Plain ls) : (readNumeral env fuel ls).Yields l fun r l' => Counts ls l r.2 l' := by
  unfold readNumeral
  refine (saveAndNext_counts plain).bind ?_
  intro ls₁ l₁ counts₁
  refine (saveWhile_counts (isBreak_of rfl rfl)).bind ?_
  intro ls₂ l₂ counts₂
  refine (checkNext_counts (by decide) rfl).bind ?_
  rintro ⟨exponent, ls₃⟩ l₃ counts₃
  have sign : (if exponent then checkNext ls₃ "+-" else pure (false, ls₃)).Yields l₃ fun r l' => Counts ls₃ l₃ r.2 l' :=
    Yields.ite (fun _ => checkNext_counts (by decide) rfl) fun _ => .done .nothing
  refine sign.bind ?_
  rintro ⟨_, ls₄⟩ l₄ counts₄
  refine (saveWhile_counts (isBreak_of rfl rfl)).bind ?_
  intro ls₅ l₅ counts₅
  refine (save_still 0).bind ?_
  intro ls₆ l₆ still
  have counts : Counts ls l ls₆ l₆ :=
    ((((counts₁.trans counts₂).trans counts₃).trans counts₄).trans counts₅).trans still.counts
  simp only
  split
  · exact .done counts
  · exact trydecpoint_counts.weaken fun _ _ counts' => counts.trans counts'

/-! ## Tokens -/

theorem skipLine_counts : (skipLine fuel ls).Yields l (Counts ls l) := by
  induction fuel generalizing ls l with
  | zero => exact .fail
  | succ fuel inductionHypothesis =>
    refine Yields.ite (fun goesOn => ?_) fun _ => .done .nothing
    have plain : Plain ls := by
      cases here : ls.current with
      | none => exact absurd here goesOn.2
      | some c => exact ⟨c, here, by simpa [LexState.currIsNewline, LexState.currentIs, here, isBreak] using goesOn.1⟩
    refine (next_counts plain).bind ?_
    exact fun ls₁ l₁ counts => inductionHypothesis.weaken fun _ _ => counts.trans

theorem readComment_counts : (readComment fuel ls).Yields l (Counts ls l) := by
  refine Yields.ite (fun isBracket => ?_) fun _ => skipLine_counts
  refine (skipSep_counts ⟨_, isBracket, rfl⟩).bind ?_
  rintro ⟨sep, ls₁⟩ l₁ ⟨counts, bracket⟩
  refine Yields.ite (fun isSep => ?_) fun _ => ?_
  · refine (readLongString_counts true isSep (by exact bracket isSep)).bind ?_
    exact fun r l₂ counts' => .done (counts.trans counts')
  · exact skipLine_counts.weaken fun _ _ => counts.trans

theorem orEqual_counts (here : ls.current = some c) (isPlain : isBreak c = false) (withEqual : Nat) :
    (orEqual ls c withEqual).Yields l fun r l' => Counts ls l r.2 l' := by
  unfold orEqual
  refine (next_counts ⟨c, here, isPlain⟩).bind ?_
  intro ls₁ l₁ counts
  refine Yields.ite (fun _ => .done counts) fun isEqual => ?_
  refine (next_counts ⟨_, not_not.mp isEqual, rfl⟩).bind ?_
  exact fun ls₂ l₂ counts' => .done (counts.trans counts')

theorem glexLoop_counts {left : Nat} {seminfo : SemInfo N} :
    (glexLoop env fuel left ls seminfo).Yields l fun r l' => Counts ls l r.2 l' := by
  induction left generalizing ls l with
  | zero => exact .fail
  | succ left inductionHypothesis =>
    have goOn : ∀ {ls' : LexState N} {l' : List UInt8}, Counts ls l ls' l' →
        (glexLoop env fuel left ls' seminfo).Yields l' fun r l'' => Counts ls l r.2 l'' := by
      intro ls' l' counts
      exact inductionHypothesis.weaken fun _ _ => counts.trans
    have numeral : ∀ {ls' : LexState N} {l' : List UInt8}, Counts ls l ls' l' → Plain ls' →
        (readNumeral env fuel ls' >>= fun r => pure ((⟨tkNumber, .r r.1⟩ : Token N), r.2)).Yields l'
          fun r l'' => Counts ls l r.2 l'' :=
      fun counts plain => (readNumeral_counts plain).bind fun _ _ counts' => .done (counts.trans counts')
    unfold glexLoop
    cases here : ls.current with
    | none => exact .done .nothing
    | some c =>
      have oneOrTwo : ∀ withEqual, isBreak c = false →
          (orEqual ls c withEqual >>= fun r => pure ((⟨r.1, seminfo⟩ : Token N), r.2)).Yields l
            fun r l' => Counts ls l r.2 l' :=
        fun withEqual isPlain => (orEqual_counts here isPlain withEqual).bind fun _ _ counts => .done counts
      simp only
      -- the cases of the `switch', in its order
      refine Yields.ite (fun isLine => ?_) fun notLine => ?_
      · exact (inclinenumber_counted here ((isBreak_iff c).mpr isLine)).bind fun _ _ => goOn
      have isPlain : isBreak c = false := by rwa [← Bool.not_eq_true, isBreak_iff]
      have plain : Plain ls := ⟨c, here, isPlain⟩
      refine Yields.ite (fun _ => ?_) fun _ => ?_
      · refine (next_counts plain).bind ?_
        intro ls₁ l₁ counts₁
        refine Yields.ite (fun _ => .done counts₁) fun isComment => ?_
        refine (next_counts ⟨_, not_not.mp isComment, rfl⟩).bind ?_
        intro ls₂ l₂ counts₂
        refine readComment_counts.bind ?_
        exact fun ls₃ l₃ counts₃ => goOn ((counts₁.trans counts₂).trans counts₃)
      refine Yields.ite (fun _ => ?_) fun _ => ?_
      · refine (skipSep_counts plain).bind ?_
        rintro ⟨sep, ls₁⟩ l₁ ⟨counts, bracket⟩
        refine Yields.ite (fun isSep => ?_) fun _ => Yields.ite (fun _ => .done counts) fun _ => lexerror_yields _ _
        refine (readLongString_counts false isSep (bracket isSep)).bind ?_
        exact fun r l₂ counts' => .done (counts.trans counts')
      refine Yields.ite (fun _ => oneOrTwo tkEq isPlain) fun _ => ?_
      refine Yields.ite (fun _ => oneOrTwo tkLe isPlain) fun _ => ?_
      refine Yields.ite (fun _ => oneOrTwo tkGe isPlain) fun _ => ?_
      refine Yields.ite (fun _ => oneOrTwo tkNe isPlain) fun _ => ?_
      refine Yields.ite (fun _ => ?_) fun _ => ?_
      · exact (readString_counts here isPlain).bind fun _ _ counts => .done counts
      refine Yields.ite (fun _ => ?_) fun _ => ?_
      · refine (saveAndNext_counts plain).bind ?_
        intro ls₁ l₁ counts₁
        refine (checkNext_counts (by decide) rfl).bind ?_
        rintro ⟨second, ls₂⟩ l₂ counts₂
        have counts := counts₁.trans counts₂
        refine Yields.ite (fun _ => ?_) fun _ => Yields.ite (fun _ => .done counts) fun isDigit => ?_
        · refine (checkNext_counts (by decide) rfl).bind ?_
          exact fun r l₃ counts₃ => .done (counts.trans counts₃)
        · exact numeral counts (plain_of_is isBreak_of_isdigit (by simpa using isDigit))
      refine Yields.ite (fun _ => (next_counts plain).bind fun _ _ => goOn) fun _ => ?_
      refine Yields.ite (fun _ => numeral .nothing plain) fun _ => ?_
      refine Yields.ite (fun _ => ?_) fun _ => ?_
      · refine (saveAndNext_counts plain).bind ?_
        intro ls₁ l₁ counts₁
        refine (saveWhile_counts (isBreak_of rfl rfl)).bind ?_
        intro ls₂ l₂ counts₂
        split <;> exact .done (counts₁.trans counts₂)
      · exact (next_counts plain).bind fun _ _ counts => .done counts

theorem gafqXNext_counts : (gafqXNext env fuel ls).Yields l (Counts ls l) := by
  refine Yields.ite (fun _ => .done ⟨0, .nothing, rfl⟩) fun _ => ?_
  have lexed := @glexLoop_counts N env { ls with lastline := ls.linenumber, buff := [] } l fuel fuel ls.t.seminfo
  exact Yields.bind lexed fun _ _ counts => .done counts

theorem gafqXLookahead_counts : (gafqXLookahead env fuel ls).Yields l (Counts ls l) := by
  have lexed := @glexLoop_counts N env { ls with buff := [] } l fuel fuel ls.lookahead.seminfo
  exact Yields.bind lexed fun _ _ counts => .done counts

/-! ## Between two tokens -/

/-- A lexer that has been given the stream `text` and has been asked for tokens, and what is left unread. -/
inductive ReadFrom (env : Library N) (text : List UInt8) : LexState N → List UInt8 → Prop where
  | setinput {ls ls' : LexState N} {l' : List UInt8} : (setinput ls).run text = .ok (ls', l') → ReadFrom env text ls' l'
  | next {ls ls' : LexState N} {l l' : List UInt8} {fuel : Nat} : ReadFrom env text ls l →
      (gafqXNext env fuel ls).run l = .ok (ls', l') → ReadFrom env text ls' l'
  | lookahead {ls ls' : LexState N} {l l' : List UInt8} {fuel : Nat} : ReadFrom env text ls l →
      (gafqXLookahead env fuel ls).run l = .ok (ls', l') → ReadFrom env text ls' l'

theorem ReadFrom.lines {text : List UInt8} (read : ReadFrom env text ls l) :
    ∃ n, Lines text (upcoming ls l) n ∧ ls.linenumber = 1 + n := by
  induction read with
  | @setinput ls ls' l' ran =>
    rw [Lexer.setinput, next_run] at ran
    obtain ⟨rfl, rfl⟩ := Prod.mk.inj (Except.ok.inj ran)
    refine ⟨0, ?_, rfl⟩
    cases text with
    | nil => exact .nothing
    | cons c text => exact .nothing
  | next _ ran inductionHypothesis =>
    obtain ⟨n, lines, counted⟩ := inductionHypothesis
    obtain ⟨m, lines', counted'⟩ := gafqXNext_counts _ _ ran
    exact ⟨n + m, lines.trans lines', by omega⟩
  | lookahead _ ran inductionHypothesis =>
    obtain ⟨n, lines, counted⟩ := inductionHypothesis
    obtain ⟨m, lines', counted'⟩ := gafqXLookahead_counts _ _ ran
    exact ⟨n + m, lines.trans lines', by omega⟩

/-- Between two tokens the line number is one plus the number of line breaks that have been consumed; the others
are still to come. -/
theorem linenumber_consumed {text : List UInt8} (read : ReadFrom env text ls l) :
    ∃ consumed, text = consumed ++ upcoming ls l ∧ ls.linenumber = 1 + lineBreaks consumed ∧
      lineBreaks text = lineBreaks consumed + lineBreaks (upcoming ls l) := by
  obtain ⟨n, lines, counted⟩ := read.lines
  obtain ⟨⟨consumed, whole, rfl⟩, total⟩ := lines.taken
  exact ⟨consumed, whole, counted, total⟩

/-- Two line breaks, the first of two characters, before a name. -/
def thirdLine : List UInt8 := bytes "\r\n\na;"

/-- The lexer when it has returned the name. -/
def atThirdLine : LexState Unit :=
  { startState (byte ';') with
    linenumber := 3, lastline := 1, t := ⟨tkName, .ts (bytes "a")⟩, lookahead := ⟨tkEos, .r ()⟩, buff := bytes "a", decpoint := byte '.' }

theorem linenumber_consumed_name :
    ReadFrom noNumbers thirdLine atThirdLine [] ∧
    ∃ consumed, thirdLine = consumed ++ upcoming atThirdLine [] ∧ atThirdLine.linenumber = 1 + lineBreaks consumed ∧
      lineBreaks thirdLine = lineBreaks consumed + lineBreaks (upcoming atThirdLine []) := by
  have started : ReadFrom noNumbers thirdLine _ _ := @ReadFrom.setinput _ _ _ blankState _ _ rfl
  have read : ReadFrom noNumbers thirdLine atThirdLine [] := @ReadFrom.next _ _ _ _ _ _ _ 9 started rfl
  exact ⟨read, linenumber_consumed read⟩

end Gafq.Lexer
