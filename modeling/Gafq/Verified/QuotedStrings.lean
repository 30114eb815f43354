import Gafq.Lex
import Gafq.StrLib.Format

/-! # Quoted strings are read back

The text that `string.format` writes for `%q` is one string token whose value is the string.  A line break
in the string is written as an escaped line break and counts as a line, so the lexer refuses a string with
too many of them.
-/

namespace Gafq.Lexer

open Base Program StrLib

variable {N : Type} {ls ls' ls'' : LexState N} {c d : UInt8} {rest s : List UInt8}

/-! ## Steps -/

theorem next_run (ls : LexState N) (l : List UInt8) : (next ls).run l = .ok ({ ls with current := l.head? }, l.tail) := by
  cases l <;> rfl

/-- The sizes of the buffer. -/
def Sized (ls : LexState N) : Prop := ∃ k, k ≤ 63 ∧ ls.buffsize = 2 ^ k

/-- `ls'` has saved `added` and counted `lines` more. -/
structure Follows (ls ls' : LexState N) (added : List UInt8) (lines : Nat) : Prop where
  buff : ls'.buff = ls.buff ++ added
  lines : ls'.linenumber = ls.linenumber + lines
  token : ls'.t = ls.t
  lookahead : ls'.lookahead = ls.lookahead
  sized : Sized ls'

theorem Follows.refl (sized : Sized ls) : Follows ls ls [] 0 := ⟨by simp, rfl, rfl, rfl, sized⟩

theorem Follows.of_current {current : Option UInt8} {added : List UInt8} {lines : Nat}
    (follows : Follows { ls with current := current } ls' added lines) : Follows ls ls' added lines :=
  ⟨follows.buff, follows.lines, follows.token, follows.lookahead, follows.sized⟩

theorem Follows.trans {added added' : List UInt8} {lines lines' : Nat} (first : Follows ls ls' added lines)
    (second : Follows ls' ls'' added' lines') : Follows ls ls'' (added ++ added') (lines + lines') where
  buff := by rw [second.buff, first.buff, List.append_assoc]
  lines := by rw [second.lines, first.lines, Nat.add_assoc]
  token := second.token.trans first.token
  lookahead := second.lookahead.trans first.lookahead
  sized := second.sized

/-- There is room in the buffer for another character. -/
theorem save_follows (sized : Sized ls) (fits : ls.buff.length < 2 ^ 63) (c : UInt8) :
    ∃ ls', save ls c = pure ls' ∧ ls'.current = ls.current ∧ Follows ls ls' [c] 0 := by
  obtain ⟨k, small, isPower⟩ := sized
  unfold save
  by_cases full : ls.buff.length + 1 > ls.buffsize
  · have smaller : k ≤ 62 := by
      by_contra large
      obtain rfl : k = 63 := by omega
      omega
    have bound : 2 ^ k ≤ 2 ^ 62 := Nat.pow_le_pow_right (by omega) smaller
    rw [if_pos full, if_neg (by simp only [maxSizeT]; omega)]
    refine ⟨_, rfl, rfl, rfl, rfl, rfl, rfl, k + 1, by omega, ?_⟩
    rw [Nat.pow_succ, ← isPower]
  · rw [if_neg full]
    exact ⟨_, rfl, rfl, rfl, rfl, rfl, rfl, k, small, isPower⟩

theorem saveAndNext_run (sized : Sized ls) (fits : ls.buff.length < 2 ^ 63) (here : ls.current = some c) (l : List UInt8) :
    ∃ ls', (saveAndNext ls).run l = .ok (ls', l.tail) ∧ ls'.current = l.head? ∧ Follows ls ls' [c] 0 := by
  obtain ⟨ls', saved, -, follows⟩ := save_follows sized fits c
  refine ⟨{ ls' with current := l.head? }, ?_, rfl, follows.buff, follows.lines, follows.token, follows.lookahead, follows.sized⟩
  rw [saveAndNext, LexState.currentChar, here, Option.getD_some, saved, pure_eq, done_bind, next_run]

/-- A line break that is not one half of a pair. -/
theorem inclinenumber_run (notNewline : d ≠ byte '\n' ∧ d ≠ byte '\r') (few : ls.linenumber + 1 < maxInt) :
    (inclinenumber ls).run (d :: rest) = .ok ({ ls with current := some d, linenumber := ls.linenumber + 1 }, rest) := by
  have single : ({ ls with current := some d } : LexState N).currIsNewline = false := by
    simp [LexState.currIsNewline, LexState.currentIs, notNewline]
  rw [inclinenumber, run_bind_ok (next_run ls (d :: rest))]
  simp only [List.head?_cons, List.tail_cons, single, Bool.false_eq_true, false_and, if_false, pure_eq, done_bind]
  rw [if_neg (by omega)]
  rfl

/-- `\000` is a NUL, whatever comes after it. -/
theorem decimalEscape_run (here : ls.current = some (byte '0')) :
    (decimalEscape 3 ls 0).run (byte '0' :: byte '0' :: d :: rest) = .ok ((0, { ls with current := some d }), rest) := by
  have isDigit : ∀ {ls : LexState N}, ls.current = some (byte '0') → ls.currentIs isdigit = true ∧ ls.currentChar = byte '0' := by
    intro ls here
    simp [LexState.currentIs, LexState.currentChar, here]
    decide
  rw [decimalEscape, if_pos (isDigit here).1, run_bind_ok (next_run _ _), decimalEscape, if_pos (isDigit rfl).1,
    run_bind_ok (next_run _ _), decimalEscape, if_pos (isDigit rfl).1, run_bind_ok (next_run _ _), decimalEscape,
    (isDigit here).2, (isDigit rfl).2, (isDigit rfl).2]
  rfl

/-! ## Escapes -/

theorem readEscape_same (isPlain : c = quote ∨ c = backslash) (here : ls.current = some c) (sized : Sized ls)
    (fits : ls.buff.length < 2 ^ 63) :
    ∃ ls', (readEscape ls).run (d :: rest) = .ok (ls', rest) ∧ ls'.current = some d ∧ Follows ls ls' [c] 0 := by
  have none : escapes.lookup c = none := by obtain rfl | rfl := isPlain <;> decide
  have notLine : ¬ (c = byte '\n' ∨ c = byte '\r') := by obtain rfl | rfl := isPlain <;> decide
  have notDigit : (!isdigit c) = true := by obtain rfl | rfl := isPlain <;> decide
  simp only [readEscape, here, none]
  rw [if_neg notLine, if_pos notDigit]
  exact saveAndNext_run sized fits here (d :: rest)

theorem readEscape_newline (here : ls.current = some (byte '\n')) (notNewline : d ≠ byte '\n' ∧ d ≠ byte '\r')
    (sized : Sized ls) (fits : ls.buff.length < 2 ^ 63) (few : ls.linenumber + 1 < maxInt) :
    ∃ ls', (readEscape ls).run (d :: rest) = .ok (ls', rest) ∧ ls'.current = some d ∧ Follows ls ls' [byte '\n'] 1 := by
  have none : escapes.lookup (byte '\n') = none := by decide
  obtain ⟨ls', saved, -, follows⟩ := save_follows sized fits (byte '\n')
  have lines : ls'.linenumber = ls.linenumber := follows.lines
  simp only [readEscape, here, none, true_or, if_true]
  rw [saved, pure_eq, done_bind, inclinenumber_run notNewline (by omega)]
  exact ⟨_, rfl, rfl, follows.buff, by simp [lines], follows.token, follows.lookahead, follows.sized⟩

theorem readEscape_tooMany (here : ls.current = some (byte '\n')) (notNewline : d ≠ byte '\n' ∧ d ≠ byte '\r')
    (sized : Sized ls) (fits : ls.buff.length < 2 ^ 63) (many : ls.linenumber + 1 = maxInt) (noToken : ls.t.token = 0) :
    (readEscape ls).run (d :: rest) = .error (.syntaxError maxInt "chunk has too many lines" none) := by
  have none : escapes.lookup (byte '\n') = none := by decide
  obtain ⟨ls', saved, -, follows⟩ := save_follows sized fits (byte '\n')
  have lines : ls'.linenumber = ls.linenumber := follows.lines
  have single : ({ ls' with current := some d } : LexState N).currIsNewline = false := by
    simp [LexState.currIsNewline, LexState.currentIs, notNewline]
  simp only [readEscape, here, none, true_or, if_true]
  rw [saved, pure_eq, done_bind, inclinenumber, run_bind_ok (next_run ls' (d :: rest))]
  simp only [List.head?_cons, List.tail_cons, single, Bool.false_eq_true, false_and, if_false, pure_eq, done_bind]
  rw [if_pos (by omega), syntaxerror, lexerror, if_pos (by simp only [follows.token, noToken]), lines, many]
  rfl

theorem readEscape_return (here : ls.current = some (byte 'r')) (sized : Sized ls) (fits : ls.buff.length < 2 ^ 63) :
    ∃ ls', (readEscape ls).run (d :: rest) = .ok (ls', rest) ∧ ls'.current = some d ∧ Follows ls ls' [byte '\r'] 0 := by
  have isReturn : escapes.lookup (byte 'r') = some (byte '\r') := by decide
  obtain ⟨ls', saved, -, follows⟩ := save_follows sized fits (byte '\r')
  simp only [readEscape, here, isReturn]
  rw [saved, pure_eq, done_bind, next_run]
  exact ⟨_, rfl, rfl, follows.buff, follows.lines, follows.token, follows.lookahead, follows.sized⟩

theorem readEscape_nul (here : ls.current = some (byte '0')) (sized : Sized ls) (fits : ls.buff.length < 2 ^ 63) :
    ∃ ls', (readEscape ls).run (byte '0' :: byte '0' :: d :: rest) = .ok (ls', rest) ∧ ls'.current = some d ∧
      Follows ls ls' [0] 0 := by
  have none : escapes.lookup (byte '0') = none := by decide
  have notLine : ¬ (byte '0' = byte '\n' ∨ byte '0' = byte '\r') := by decide
  have isDigit : ¬ (!isdigit (byte '0')) = true := by decide
  obtain ⟨ls', saved, kept, follows⟩ := @save_follows N { ls with current := some d } sized fits 0
  simp only [readEscape, here, none]
  rw [if_neg notLine, if_neg isDigit, run_bind_ok (decimalEscape_run here)]
  simp only
  rw [if_neg (by omega), show UInt8.ofNat 0 = 0 from rfl, saved]
  exact ⟨ls', rfl, kept, follows.of_current⟩

/-! ## Strings -/

/-- What is written for a character does not begin with a line break. -/
theorem quotedChar_head (c : UInt8) : ∃ e after, quotedChar c = e :: after ∧ e ≠ byte '\n' ∧ e ≠ byte '\r' := by
  unfold quotedChar
  split
  · exact ⟨_, _, rfl, by decide, by decide⟩
  · next notPlain =>
    split
    · exact ⟨_, _, rfl, by decide, by decide⟩
    · next notReturn =>
      split
      · exact ⟨_, _, rfl, by decide, by decide⟩
      · exact ⟨_, _, rfl, fun isNewline => notPlain (.inr (.inr isNewline)), notReturn⟩

theorem quoted_head (s : List UInt8) :
    ∃ d rest, s.flatMap quotedChar ++ [quote] = d :: rest ∧ d ≠ byte '\n' ∧ d ≠ byte '\r' := by
  cases s with
  | nil => exact ⟨quote, [], rfl, by decide, by decide⟩
  | cons c s =>
    obtain ⟨e, after, isText, notNewline⟩ := quotedChar_head c
    exact ⟨e, after ++ (s.flatMap quotedChar ++ [quote]), by rw [List.flatMap_cons, isText]; simp, notNewline⟩

/-- After a `\` the loop goes on with what follows it. -/
theorem stringLoop_escape {left : Nat} (here : ls.current = some backslash) (f : UInt8) (after : List UInt8) :
    (stringLoop quote (left + 1) ls).run (f :: after) =
      (readEscape { ls with current := some f } >>= stringLoop quote left).run after := by
  have notQuote : ¬ (some backslash = some quote) := by decide
  have notLine : ¬ (backslash = byte '\n' ∨ backslash = byte '\r') := by decide
  rw [stringLoop, here, if_neg notQuote]
  simp only [notLine, if_false, if_true]
  rw [run_bind_ok (next_run _ _)]
  rfl

/-- The loop reads the text of a character, which is `e` and `after`, and saves the character. -/
theorem stringLoop_char {e : UInt8} {after : List UInt8} (text : quotedChar c = e :: after) (here : ls.current = some e)
    (notNewline : d ≠ byte '\n' ∧ d ≠ byte '\r') (sized : Sized ls) (fits : ls.buff.length < 2 ^ 63)
    (few : ls.linenumber + [c].count (byte '\n') < maxInt) (left : Nat) :
    ∃ ls', (stringLoop quote (left + 1) ls).run (after ++ d :: rest) = (stringLoop quote left ls').run rest ∧
      ls'.current = some d ∧ Follows ls ls' [c] ([c].count (byte '\n')) := by
  have escape : ∀ {ls' : LexState N} {f : UInt8} {after' : List UInt8}, ls.current = some backslash →
      (readEscape { ls with current := some f }).run after' = .ok (ls', rest) →
      (stringLoop quote (left + 1) ls).run (f :: after') = (stringLoop quote left ls').run rest := by
    intro ls' f after' here ran
    rw [stringLoop_escape here, run_bind_ok ran]
  have noLine : ∀ {c : UInt8}, c ≠ byte '\n' → [c].count (byte '\n') = 0 := fun differs => by simp [differs]
  unfold quotedChar at text
  split at text
  · next isPlain =>
    obtain ⟨rfl, rfl⟩ := List.cons.inj text
    by_cases isNewline : c = byte '\n'
    · subst isNewline
      obtain ⟨ls', ran, current, follows⟩ := @readEscape_newline N { ls with current := some (byte '\n') } d rest rfl notNewline sized fits
        (by simpa using few)
      exact ⟨ls', escape here ran, current, follows.of_current⟩
    · have isSame : c = quote ∨ c = backslash := by
        obtain isQuote | isBackslash | isLine := isPlain
        · exact .inl isQuote
        · exact .inr isBackslash
        · exact absurd isLine isNewline
      obtain ⟨ls', ran, current, follows⟩ := @readEscape_same N { ls with current := some c } c d rest isSame rfl sized fits
      rw [noLine isNewline]
      exact ⟨ls', escape here ran, current, follows.of_current⟩
  · next notPlain =>
    have notNewline' : c ≠ byte '\n' := fun isNewline => notPlain (.inr (.inr isNewline))
    rw [noLine notNewline']
    split at text
    · next isReturn =>
      subst isReturn
      obtain ⟨rfl, rfl⟩ := List.cons.inj text
      obtain ⟨ls', ran, current, follows⟩ := @readEscape_return N { ls with current := some (byte 'r') } d rest rfl sized fits
      exact ⟨ls', escape here ran, current, follows.of_current⟩
    · next notReturn =>
      split at text
      · next isNul =>
        subst isNul
        obtain ⟨rfl, rfl⟩ := List.cons.inj text
        obtain ⟨ls', ran, current, follows⟩ := @readEscape_nul N { ls with current := some (byte '0') } d rest rfl sized fits
        exact ⟨ls', escape here ran, current, follows.of_current⟩
      · obtain ⟨rfl, rfl⟩ := List.cons.inj text
        have notQuote : ¬ (some c = some quote) := fun isQuote => notPlain (.inl (Option.some.inj isQuote))
        have notLine : ¬ (c = byte '\n' ∨ c = byte '\r') := not_or.2 ⟨notNewline', notReturn⟩
        have notBackslash : c ≠ backslash := fun isBackslash => notPlain (.inr (.inl isBackslash))
        obtain ⟨ls', ran, current, follows⟩ := saveAndNext_run sized fits here (d :: rest)
        refine ⟨ls', ?_, current, follows⟩
        rw [stringLoop, here, if_neg notQuote]
        simp only [notLine, notBackslash, if_false]
        exact run_bind_ok ran

/-- The loop reads the text of a string up to the closing quote. -/
theorem stringLoop_quoted (s : List UInt8) : ∀ {ls : LexState N} {e : UInt8} {after : List UInt8} {left : Nat},
    s.flatMap quotedChar ++ [quote] = e :: after → ls.current = some e → Sized ls → ls.buff.length + s.length ≤ 2 ^ 63 →
    ls.linenumber + s.count (byte '\n') < maxInt → s.length < left →
    ∃ ls', (stringLoop quote left ls).run after = .ok (ls', []) ∧ ls'.current = some quote ∧
      Follows ls ls' s (s.count (byte '\n')) := by
  induction s with
  | nil =>
    intro ls e after left text here sized _ _ enough
    obtain ⟨rfl, rfl⟩ := List.cons.inj text
    obtain ⟨left, rfl⟩ : ∃ k, left = k + 1 := ⟨left - 1, by simp at enough; omega⟩
    exact ⟨ls, by rw [stringLoop, if_pos here]; rfl, here, .refl sized⟩
  | cons c s inductionHypothesis =>
    intro ls e after left text here sized fits few enough
    obtain ⟨left, rfl⟩ : ∃ k, left = k + 1 := ⟨left - 1, by simp at enough; omega⟩
    have count : (c :: s).count (byte '\n') = [c].count (byte '\n') + s.count (byte '\n') := by
      rw [← List.count_append]
      rfl
    simp only [List.length_cons] at fits enough
    obtain ⟨d, rest, isTail, notNewline⟩ := quoted_head s
    obtain ⟨f, after', isText, -⟩ := quotedChar_head c
    rw [List.flatMap_cons, List.append_assoc, isTail, isText] at text
    obtain ⟨rfl, rfl⟩ := List.cons.inj text
    obtain ⟨ls', ran, current, follows⟩ := @stringLoop_char N ls c d rest _ after' isText here notNewline sized (by omega) (by omega) left
    have lines := follows.lines
    have length := congrArg List.length follows.buff
    simp only [List.length_append, List.length_singleton] at length
    obtain ⟨ls'', ran', current', follows'⟩ :=
      @inductionHypothesis ls' d rest left isTail current follows.sized (by omega) (by omega) (by omega)
    refine ⟨ls'', ran.trans ran', current', ?_⟩
    rw [count]
    exact follows.trans follows'

theorem readString_quoted {fuel : Nat} (here : ls.current = some quote) (empty : ls.buff = []) (sized : Sized ls)
    (fits : s.length + 2 ≤ 2 ^ 63) (few : ls.linenumber + s.count (byte '\n') < maxInt) (enough : s.length < fuel) :
    ∃ ls', (readString fuel ls quote).run (s.flatMap quotedChar ++ [quote]) = .ok ((s, ls'), []) ∧ ls'.current = none ∧
      ls'.t = ls.t ∧ ls'.lookahead = ls.lookahead := by
  obtain ⟨d, rest, isText, -⟩ := quoted_head s
  obtain ⟨ls₁, ran₁, current₁, follows₁⟩ := saveAndNext_run sized (by simp [empty]) here (d :: rest)
  have buff₁ : ls₁.buff = [quote] := by rw [follows₁.buff, empty]; rfl
  have lines₁ : ls₁.linenumber = ls.linenumber := follows₁.lines
  obtain ⟨ls₂, ran₂, current₂, follows₂⟩ :=
    stringLoop_quoted s isText current₁ follows₁.sized (by rw [buff₁]; simp; omega) (by omega) enough
  have buff₂ : ls₂.buff = quote :: s := by rw [follows₂.buff, buff₁]; rfl
  obtain ⟨ls₃, ran₃, current₃, follows₃⟩ := saveAndNext_run follows₂.sized (by rw [buff₂]; simp; omega) current₂ []
  have buff₃ : ls₃.buff = quote :: s ++ [quote] := by rw [follows₃.buff, buff₂]
  refine ⟨ls₃, ?_, current₃, ?_, ?_⟩
  · rw [isText, readString, run_bind_ok ran₁, List.tail_cons, run_bind_ok ran₂, run_bind_ok ran₃, buff₃]
    simp [run]
  · rw [follows₃.token, follows₂.token, follows₁.token]
  · rw [follows₃.lookahead, follows₂.lookahead, follows₁.lookahead]

/-! ## Texts -/

section

variable (env : Library N) (fuel : Nat)

/-- The tokens before `TK_EOS`. -/
def tokensLoop : Nat → LexState N → LexM (List (Token N))
  | 0, _ => .fail .outOfFuel
  | left + 1, ls => do
    let ls ← gafqXNext env fuel ls
    if ls.t.token = tkEos then pure []
    else do
      let others ← tokensLoop left ls
      pure (ls.t :: others)

/-- The tokens of a text, and what is left of it. -/
def lexText (ls : LexState N) (text : List UInt8) : Except LexError (List (Token N) × List UInt8) :=
  (setinput ls >>= tokensLoop env fuel fuel).run text

end

variable {env : Library N} {fuel : Nat}

/-- A token that begins with a quote. -/
theorem gafqXNext_quote (here : ls.current = some quote) (none : ls.lookahead.token = tkEos) :
    gafqXNext env (fuel + 1) ls = readString (fuel + 1) { ls with lastline := ls.linenumber, buff := [] } quote >>= fun r =>
      pure { r.2 with t := ⟨tkString, .ts r.1⟩ } := by
  rw [gafqXNext, if_neg (not_not.2 none), glex, glexLoop]
  simp only [here]
  rw [if_neg (by decide), if_neg (by decide), if_neg (by decide), if_neg (by decide), if_neg (by decide), if_neg (by decide),
    if_neg (by decide), if_pos (.inl trivial), bind_assoc]
  rfl

theorem gafqXNext_quoted (here : ls.current = some quote) (none : ls.lookahead.token = tkEos) (sized : Sized ls)
    (fits : s.length + 2 ≤ 2 ^ 63) (few : ls.linenumber + s.count (byte '\n') < maxInt) (enough : s.length < fuel) :
    ∃ ls', (gafqXNext env fuel ls).run (s.flatMap quotedChar ++ [quote]) = .ok (ls', []) ∧ ls'.current = .none ∧
      ls'.t = ⟨tkString, .ts s⟩ ∧ ls'.lookahead.token = tkEos := by
  obtain ⟨fuel, rfl⟩ : ∃ k, fuel = k + 1 := ⟨fuel - 1, by omega⟩
  obtain ⟨ls', ran, current, -, lookahead⟩ :=
    @readString_quoted N { ls with lastline := ls.linenumber, buff := [] } s (fuel + 1) here rfl sized fits few enough
  refine ⟨{ ls' with t := ⟨tkString, .ts s⟩ }, ?_, current, rfl, by rw [lookahead]; exact none⟩
  rw [gafqXNext_quote here none, run_bind_ok ran]
  rfl

theorem gafqXNext_end (more : 0 < fuel) (atEnd : ls.current = none) (none : ls.lookahead.token = tkEos) :
    ∃ ls', (gafqXNext env fuel ls).run [] = .ok (ls', []) ∧ ls'.t.token = tkEos := by
  obtain ⟨fuel, rfl⟩ : ∃ k, fuel = k + 1 := ⟨fuel - 1, by omega⟩
  refine ⟨{ ls with lastline := ls.linenumber, buff := [], t := ⟨tkEos, ls.t.seminfo⟩ }, ?_, rfl⟩
  rw [gafqXNext, if_neg (not_not.2 none), glex, glexLoop]
  simp only [atEnd]
  rfl

theorem setinput_run (ls : LexState N) (text : List UInt8) :
    ∃ ls', (setinput ls).run text = .ok (ls', text.tail) ∧ ls'.current = text.head? ∧ ls'.lookahead.token = tkEos ∧ Sized ls' ∧
      ls'.linenumber = 1 ∧ ls'.t.token = ls.t.token :=
  ⟨_, next_run _ _, rfl, rfl, ⟨5, by omega, rfl⟩, rfl, rfl⟩

/-- What `%q` writes for a string is one token, the string itself. -/
theorem lexText_addquoted (few : s.count (byte '\n') + 1 < maxInt) (fits : s.length + 2 ≤ 2 ^ 63)
    (enough : s.length + 2 ≤ fuel) (ls : LexState N) :
    lexText env fuel ls (addquoted s) = .ok ([⟨tkString, .ts s⟩], []) := by
  obtain ⟨left, isFuel⟩ : ∃ k, fuel = k + 2 := ⟨fuel - 2, by omega⟩
  obtain ⟨ls₀, ran₀, current₀, none₀, sized₀, line₀, -⟩ := setinput_run ls (addquoted s)
  obtain ⟨ls₁, ran₁, current₁, token₁, none₁⟩ :=
    @gafqXNext_quoted N ls₀ s env fuel current₀ none₀ sized₀ fits (by omega) (by omega)
  obtain ⟨ls₂, ran₂, token₂⟩ := @gafqXNext_end N ls₁ env fuel (by omega) current₁ none₁
  have isString : ls₁.t.token ≠ tkEos := by rw [token₁]; exact (by decide : tkString ≠ tkEos)
  have second : (tokensLoop env fuel (left + 1) ls₁).run [] = .ok ([], []) := by
    rw [tokensLoop, run_bind_ok ran₂, if_pos token₂]
    rfl
  have first : (tokensLoop env fuel (left + 2) ls₀).run (s.flatMap quotedChar ++ [quote]) = .ok ([⟨tkString, .ts s⟩], []) := by
    rw [tokensLoop, run_bind_ok ran₁, if_neg isString, run_bind_ok second, token₁]
    rfl
  rw [lexText, run_bind_ok ran₀]
  rw [show tokensLoop env fuel fuel = tokensLoop env fuel (left + 2) by rw [← isFuel]]
  exact first

theorem lexText_addquoted_digits :
    lexText noNumbers 7 blankState (addquoted [0, 49, 34, 13, 10]) = .ok ([⟨tkString, .ts [0, 49, 34, 13, 10]⟩], []) :=
  lexText_addquoted (by decide) (by decide) (by decide) blankState

/-! ## Too many lines -/

/-- The loop refuses the line break that makes too many lines. -/
theorem stringLoop_tooMany (s : List UInt8) : ∀ {ls : LexState N} {e : UInt8} {after : List UInt8} {left : Nat},
    s.flatMap quotedChar ++ [quote] = e :: after → ls.current = some e → Sized ls → ls.buff.length + s.length ≤ 2 ^ 63 →
    ls.linenumber < maxInt → maxInt ≤ ls.linenumber + s.count (byte '\n') → s.length < left → ls.t.token = 0 →
    (stringLoop quote left ls).run after = .error (.syntaxError maxInt "chunk has too many lines" none) := by
  induction s with
  | nil =>
    intro ls e after left _ _ _ _ few many
    simp only [List.count_nil] at many
    omega
  | cons c s inductionHypothesis =>
    intro ls e after left text here sized fits few many enough noToken
    obtain ⟨left, rfl⟩ : ∃ k, left = k + 1 := ⟨left - 1, by simp at enough; omega⟩
    have count : (c :: s).count (byte '\n') = [c].count (byte '\n') + s.count (byte '\n') := by
      rw [← List.count_append]
      rfl
    simp only [List.length_cons] at fits enough
    obtain ⟨d, rest, isTail, notNewline⟩ := quoted_head s
    obtain ⟨f, after', isText, -⟩ := quotedChar_head c
    rw [List.flatMap_cons, List.append_assoc, isTail, isText] at text
    obtain ⟨rfl, rfl⟩ := List.cons.inj text
    by_cases goesOn : ls.linenumber + [c].count (byte '\n') < maxInt
    · obtain ⟨ls', ran, current, follows⟩ := @stringLoop_char N ls c d rest _ after' isText here notNewline sized (by omega) goesOn left
      have lines := follows.lines
      have length := congrArg List.length follows.buff
      simp only [List.length_append, List.length_singleton] at length
      exact ran.trans (@inductionHypothesis ls' d rest left isTail current follows.sized (by omega) (by omega) (by omega)
        (by omega) (by rw [follows.token, noToken]))
    · obtain rfl : c = byte '\n' := by
        by_contra differs
        rw [List.count_singleton, if_neg (by simpa using differs)] at goesOn
        omega
      obtain ⟨rfl, rfl⟩ := List.cons.inj isText
      rw [List.count_singleton_self] at goesOn
      exact (stringLoop_escape here _ _).trans (run_bind_error
        (@readEscape_tooMany N { ls with current := some (byte '\n') } d rest rfl notNewline sized (by simp only; omega)
          (by simp only; omega) noToken))

/-- The lexer refuses what `%q` writes for a string with too many line breaks. -/
theorem lexText_tooMany {ls : LexState N} {env : Library N} {fuel : Nat} (many : maxInt ≤ s.count (byte '\n') + 1)
    (fits : s.length + 2 ≤ 2 ^ 63) (enough : s.length + 2 ≤ fuel) (noToken : ls.t.token = 0) :
    lexText env fuel ls (addquoted s) = .error (.syntaxError maxInt "chunk has too many lines" none) := by
  obtain ⟨fuel, rfl⟩ : ∃ k, fuel = k + 1 := ⟨fuel - 1, by omega⟩
  obtain ⟨d, rest, isText, -⟩ := quoted_head s
  obtain ⟨ls₀, ran₀, current₀, none₀, sized₀, line₀, token₀⟩ := setinput_run ls (addquoted s)
  obtain ⟨ls₁, ran₁, current₁, follows₁⟩ :=
    @saveAndNext_run N { ls₀ with lastline := ls₀.linenumber, buff := [] } quote sized₀ (by simp) current₀ (d :: rest)
  have buff₁ : ls₁.buff = [quote] := follows₁.buff
  have lines₁ : ls₁.linenumber = 1 := follows₁.lines.trans line₀
  have refused := stringLoop_tooMany s isText current₁ follows₁.sized (by rw [buff₁]; simp; omega) (by rw [lines₁]; decide)
    (by omega) (by omega : s.length < fuel + 1) (by rw [follows₁.token]; exact token₀.trans noToken)
  have token : (gafqXNext env (fuel + 1) ls₀).run (s.flatMap quotedChar ++ [quote]) =
      .error (.syntaxError maxInt "chunk has too many lines" none) := by
    rw [gafqXNext_quote current₀ none₀, isText, readString, bind_assoc, run_bind_ok ran₁, bind_assoc]
    exact run_bind_error refused
  rw [lexText, run_bind_ok ran₀, tokensLoop]
  exact run_bind_error token

theorem lexText_newlines :
    lexText noNumbers (2 ^ 32) blankState (addquoted (List.replicate (maxInt - 1) (byte '\n'))) =
      .error (.syntaxError maxInt "chunk has too many lines" none) := by
  apply lexText_tooMany
  · rw [List.count_replicate_self]
    decide
  · rw [List.length_replicate]
    decide
  · rw [List.length_replicate]
    decide
  · rfl

end Gafq.Lexer
