import Gafq.Verified.TokenSpelling

/-! # The bytes of a token

A token that `glex` returns is spelled by the bytes that it has taken behind the blanks, and only a NUL in a
place where `check_next` looks for a character makes an exception.
-/

namespace Gafq.Lexer

open Base Program

variable {N : Type} {env : Library N} {ls ls' ls'' : LexState N} {c d decpoint : UInt8} {seminfo : SemInfo N} {t : Token N}
  {l l' l'' text start saved : List UInt8} {fuel left : Nat}

/-! ## Spellings -/

/-- A character that is a token by itself. -/
def isSingle (c : UInt8) : Bool :=
  !isspace c && !isdigit c && !isalpha c && c != byte '_' && c != quote && c != apostrophe

/-- A name or a reserved word. -/
inductive Word : List UInt8 → Prop where
  | mk {c : UInt8} {s : List UInt8} : isalpha c = true ∨ c = byte '_' → s.all isalnumOrUnderscore = true → Word (c :: s)

/-- The bytes that spell a token. -/
inductive Spelled (env : Library N) (decpoint : UInt8) : Token N → List UInt8 → Prop where
  | eos {s : SemInfo N} : Spelled env decpoint ⟨tkEos, s⟩ []
  | single {c : UInt8} {s : SemInfo N} : isSingle c = true → Spelled env decpoint ⟨c.toNat, s⟩ [c]
  | eq {s : SemInfo N} : Spelled env decpoint ⟨tkEq, s⟩ (bytes "==")
  | ge {s : SemInfo N} : Spelled env decpoint ⟨tkGe, s⟩ (bytes ">=")
  | le {s : SemInfo N} : Spelled env decpoint ⟨tkLe, s⟩ (bytes "<=")
  | ne {s : SemInfo N} : Spelled env decpoint ⟨tkNe, s⟩ (bytes "~=")
  | concat {s : SemInfo N} : Spelled env decpoint ⟨tkConcat, s⟩ (bytes "..")
  | dots {s : SemInfo N} : Spelled env decpoint ⟨tkDots, s⟩ (bytes "...")
  | reserved {text : List UInt8} {token : Nat} {s : SemInfo N} : Word text → reserved text = some token →
      Spelled env decpoint ⟨token, s⟩ text
  | name {text : List UInt8} : Word text → Lexer.reserved text = none → Spelled env decpoint ⟨tkName, .ts text⟩ text
  | number {text : List UInt8} {r : N} : Numeral text → Converts env decpoint text r →
      Spelled env decpoint ⟨tkNumber, .r r⟩ text
  /-- a numeral that begins with its point -/
  | fraction {text : List UInt8} {r : N} : Numeral text → Converts env decpoint (byte '.' :: text) r →
      Spelled env decpoint ⟨tkNumber, .r r⟩ (byte '.' :: text)
  | quoted {del : UInt8} {text value : List UInt8} : del = quote ∨ del = apostrophe → Quoted del text value →
      Spelled env decpoint ⟨tkString, .ts value⟩ (del :: (text ++ [del]))
  | long {n : Nat} {s : List UInt8} : NoCloser n s →
      Spelled env decpoint ⟨tkString, .ts (normalized (dropBreak s))⟩ (openBracket n ++ s ++ closeBracket n)

theorem reserved_bounds {ts : TString} {token : Nat} (isReserved : reserved ts = some token) : 257 ≤ token ∧ token < 278 := by
  simp only [reserved, Option.map_eq_some_iff] at isReserved
  obtain ⟨i, found, rfl⟩ := isReserved
  have inside := (List.idxOf?_eq_some_iff.mp found).1
  have count : ((tokens.take numReserved).map bytes).length = 21 := by decide
  simp only [firstReserved]
  omega

/-- The tokens with a number of their own are no characters and no reserved words. -/
theorem Spelled.concat_text (spelled : Spelled env decpoint t text) (isConcat : t.token = tkConcat) : text = bytes ".." := by
  cases spelled with
  | concat => rfl
  | @single c s =>
    have small := c.toNat_lt
    simp only [tkConcat] at isConcat
    omega
  | reserved word isReserved =>
    have bounds := reserved_bounds isReserved
    simp only [tkConcat] at isConcat
    omega
  | _ => cases isConcat

theorem Spelled.dots_text (spelled : Spelled env decpoint t text) (isDots : t.token = tkDots) : text = bytes "..." := by
  cases spelled with
  | dots => rfl
  | @single c s =>
    have small := c.toNat_lt
    simp only [tkDots] at isDots
    omega
  | reserved word isReserved =>
    have bounds := reserved_bounds isReserved
    simp only [tkDots] at isDots
    omega
  | _ => cases isDots

theorem Spelled.number_noNul (spelled : Spelled env decpoint t text) (isNumber : t.token = tkNumber) : 0 ∉ text := by
  cases spelled with
  | number numeral => exact numeral.noNul
  | fraction numeral => simpa [byte] using numeral.noNul
  | @single c s =>
    have small := c.toNat_lt
    simp only [tkNumber] at isNumber
    omega
  | reserved word isReserved =>
    have bounds := reserved_bounds isReserved
    simp only [tkNumber] at isNumber
    omega
  | _ => cases isNumber

/-! ## What a token begins with -/

/-- Neither a blank nor a comment. -/
structure Begins (start : List UInt8) : Prop where
  notBlank : ∀ c, start.head? = some c → isspace c = false
  notComment : ¬ bytes "--" <+: start

/-- A NUL stands where `check_next` looks for another dot, for an exponent or for its sign. -/
inductive AbsorbsNul : List UInt8 → Prop where
  | dot {rest : List UInt8} : AbsorbsNul (byte '.' :: 0 :: rest)
  | dots {rest : List UInt8} : AbsorbsNul (byte '.' :: byte '.' :: 0 :: rest)
  | number {c : UInt8} {rest : List UInt8} : isdigit c = true → NulAfter (c :: rest) → AbsorbsNul (c :: rest)
  | fraction {c : UInt8} {rest : List UInt8} : isdigit c = true → NulAfter (c :: rest) → AbsorbsNul (byte '.' :: c :: rest)

theorem begins_of_first (notBlank : isspace c = false) (notMinus : c ≠ byte '-') (l : List UInt8) : Begins (c :: l) where
  notBlank := by simpa using notBlank
  notComment comment := notMinus (List.cons_prefix_cons.mp comment).1.symm

theorem AbsorbsNul.first (absorbs : AbsorbsNul (c :: l)) : c = byte '.' ∨ isdigit c = true := by
  cases absorbs with
  | dot => exact .inl rfl
  | dots => exact .inl rfl
  | number digit => exact .inr digit
  | fraction => exact .inl rfl

theorem not_absorbsNul (notDot : c ≠ byte '.') (notDigit : isdigit c = false) (l : List UInt8) : ¬ AbsorbsNul (c :: l) := by
  intro absorbs
  obtain dot | digit := absorbs.first
  · exact notDot dot
  · rw [notDigit] at digit
    cases digit

/-! ## One token -/

/-- The bytes from `start` to where the lexer is now spell the token. -/
def SpelledFrom (env : Library N) (decpoint : UInt8) (start : List UInt8) (t : Token N) (ls' : LexState N) (l' : List UInt8) : Prop :=
  ∃ text, start = text ++ upcoming ls' l' ∧ Spelled env decpoint t text

/-- The lexer has skipped the blanks and taken a token. -/
def Lexed (env : Library N) (ls : LexState N) (l : List UInt8) (t : Token N) (ls' : LexState N) (l' : List UInt8) : Prop :=
  ∃ blanks start, upcoming ls l = blanks ++ start ∧ Blanks blanks start ∧ Begins start ∧
    (SpelledFrom env ls.decpoint start t ls' l' ↔ ¬ AbsorbsNul start)

/-- A token without blanks before it. -/
theorem lexed_spelled (begins : Begins (upcoming ls l)) (plain : ¬ AbsorbsNul (upcoming ls l))
    (taken : upcoming ls l = text ++ upcoming ls' l') (spelled : Spelled env ls.decpoint t text) : Lexed env ls l t ls' l' :=
  ⟨[], upcoming ls l, rfl, .none, begins, iff_of_true ⟨text, taken, spelled⟩ plain⟩

theorem lexed_absorbed (begins : Begins (upcoming ls l)) (absorbs : AbsorbsNul (upcoming ls l))
    (taken : upcoming ls l = text ++ upcoming ls' l') (misspelled : ¬ Spelled env ls.decpoint t text) : Lexed env ls l t ls' l' := by
  refine ⟨[], upcoming ls l, rfl, .none, begins, iff_of_false ?_ (not_not.mpr absorbs)⟩
  rintro ⟨text', taken', spelled⟩
  obtain rfl := List.append_left_injective _ (taken.symm.trans taken')
  exact misspelled spelled

/-- Something is skipped before the token. -/
theorem Lexed.skip (lexed : Lexed env ls' l' t ls'' l'') (passed : Passed ls l text ls' l')
    (blank : ∀ blanks start, upcoming ls' l' = blanks ++ start → Blanks blanks start → Blanks (text ++ blanks) start) :
    Lexed env ls l t ls'' l'' := by
  obtain ⟨blanks, start, whole, isBlanks, begins, spelled⟩ := lexed
  rw [passed.decpoint] at spelled
  exact ⟨text ++ blanks, start, by rw [passed.upcoming, whole, List.append_assoc], blank blanks start whole isBlanks, begins, spelled⟩

theorem orEqual_took {token withEqual : Nat} (here : ls.current = some c)
    (ran : (orEqual ls c withEqual).run l = .ok ((token, ls'), l')) :
    token = c.toNat ∧ Took ls l [c] [] ls' l' ∨ token = withEqual ∧ Took ls l [c, byte '='] [] ls' l' := by
  rw [orEqual, run_bind_returned] at ran
  obtain ⟨ls₁, l₁, moved, ran⟩ := ran
  have first := next_took here moved
  split at ran
  · obtain ⟨same, rfl⟩ := run_done.mp ran
    obtain ⟨rfl, rfl⟩ := Prod.mk.inj same
    exact .inl ⟨rfl, first⟩
  · next equal =>
    rw [run_bind_returned] at ran
    obtain ⟨ls₂, l₂, moved', done⟩ := ran
    obtain ⟨same, rfl⟩ := run_done.mp done
    obtain ⟨rfl, rfl⟩ := Prod.mk.inj same
    exact .inr ⟨rfl, first.trans (next_took (not_not.mp equal) moved')⟩

/-- A comparison, or its first character. -/
theorem orEqual_lexed {token withEqual : Nat} (reading : Reading ls l) (here : ls.current = some c) (single : isSingle c = true)
    (notMinus : c ≠ byte '-') (notDot : c ≠ byte '.')
    (spelled : ∀ s : SemInfo N, Spelled env ls.decpoint ⟨withEqual, s⟩ [c, byte '='])
    (ran : (orEqual ls c withEqual).run l = .ok ((token, ls'), l')) :
    Reading ls' l' ∧ Lexed env ls l ⟨token, seminfo⟩ ls' l' := by
  have marks : isspace c = false ∧ isdigit c = false := by
    simp only [isSingle, Bool.and_eq_true, Bool.not_eq_true'] at single
    exact single.1.1.1.1
  have begins : Begins (upcoming ls l) := by
    rw [upcoming_some here]
    exact begins_of_first marks.1 notMinus l
  have plain : ¬ AbsorbsNul (upcoming ls l) := by
    rw [upcoming_some here]
    exact not_absorbsNul notDot marks.2 l
  obtain ⟨rfl, took⟩ | ⟨rfl, took⟩ := orEqual_took here ran
  · exact ⟨took.reading reading, lexed_spelled begins plain took.upcoming (.single single)⟩
  · exact ⟨took.reading reading, lexed_spelled begins plain took.upcoming (spelled seminfo)⟩

theorem number_lexed {r : N} (point : env.decimalPoint ≠ 0) (reading : Reading ls l) (empty : ls.buff = [])
    (here : ls.current = some c) (digit : isdigit c = true) (notBlank : isspace c = false)
    (ran : (readNumeral env fuel ls).run l = .ok ((r, ls'), l')) :
    Reading ls' l' ∧ Lexed env ls l ⟨tkNumber, .r r⟩ ls' l' := by
  obtain ⟨reading', text, taken, ⟨zero, absorbed⟩ | ⟨numeral, converts, plain⟩⟩ :=
    readNumeral_took point reading here digit (by simp [empty]) ran
  all_goals
    have begins : Begins (upcoming ls l) := by
      rw [upcoming_some here]
      refine begins_of_first notBlank ?_ l
      rintro rfl
      cases digit
  · refine ⟨reading', lexed_absorbed begins ?_ taken fun spelled => spelled.number_noNul rfl zero⟩
    rw [upcoming_some here] at absorbed ⊢
    exact .number digit absorbed
  · rw [empty, List.nil_append] at converts
    refine ⟨reading', lexed_spelled begins ?_ taken (.number numeral converts)⟩
    rw [upcoming_some here] at plain ⊢
    intro absorbs
    cases absorbs with
    | number _ absorbed => exact plain absorbed
    | _ => cases digit

/-- A dot, and what it begins. -/
theorem dot_lexed {a : Token N × LexState N} (point : env.decimalPoint ≠ 0) (reading : Reading ls l) (empty : ls.buff = [])
    (here : ls.current = some (byte '.'))
    (ran : (saveAndNext ls >>= fun ls => checkNext ls "." >>= fun r =>
      if r.1 then checkNext r.2 "." >>= fun r => pure (⟨if r.1 then tkDots else tkConcat, seminfo⟩, r.2)
      else if !r.2.currentIs isdigit then pure (⟨(byte '.').toNat, seminfo⟩, r.2)
      else readNumeral env fuel r.2 >>= fun r => pure (⟨tkNumber, .r r.1⟩, r.2)).run l = .ok (a, l')) :
    Reading a.2 l' ∧ Lexed env ls l a.1 a.2 l' := by
  rw [run_bind_returned] at ran
  obtain ⟨ls₁, l₁, moved, ran⟩ := ran
  rw [run_bind_returned] at ran
  obtain ⟨⟨second, ls₂⟩, l₂, checked, ran⟩ := ran
  have first := saveAndNext_took here moved
  have begins : Begins (upcoming ls l) := by
    rw [upcoming_some here]
    exact begins_of_first (by decide) (by decide) l
  have whole := first.upcoming
  rw [List.singleton_append] at whole
  simp only at ran
  obtain ⟨rfl, d, here₁, isDot, took⟩ | ⟨rfl, rfl, rfl, missing⟩ := checkNext_took (by decide) first.ended checked
  · rw [if_pos rfl, run_bind_returned] at ran
    obtain ⟨⟨third, ls₃⟩, l₃, checked', done⟩ := ran
    obtain ⟨rfl, rfl⟩ := run_done.mp done
    have both := first.trans took
    have dots (e : UInt8) : e ∈ bytes "." → e = byte '.' := by simp [bytes]
    have rest := took.upcoming
    rw [List.singleton_append] at rest
    obtain ⟨rfl, e, here₂, isDot', took'⟩ | ⟨rfl, rfl, rfl, missing⟩ := checkNext_took (by decide) took.ended checked'
    · have three := both.trans took'
      have rest' := took'.upcoming
      rw [List.singleton_append] at rest'
      refine ⟨three.reading reading, ?_⟩
      obtain isDot | rfl := isDot
      · obtain isDot' | rfl := isDot'
        · obtain rfl := dots d isDot
          obtain rfl := dots e isDot'
          refine lexed_spelled begins ?_ three.upcoming .dots
          rw [whole, rest, rest']
          rintro (_ | _ | ⟨digit, -⟩ | ⟨digit, -⟩) <;> cases digit
        · obtain rfl := dots d isDot
          refine lexed_absorbed begins ?_ three.upcoming fun spelled => ?_
          · rw [whole, rest, rest']
            exact .dots
          · exact absurd (spelled.dots_text rfl) (by decide)
      · refine lexed_absorbed begins ?_ three.upcoming fun spelled => ?_
        · rw [whole, rest]
          exact .dot
        · have text := spelled.dots_text rfl
          cases text
    · refine ⟨both.reading reading, ?_⟩
      obtain isDot | rfl := isDot
      · obtain rfl := dots d isDot
        refine lexed_spelled begins ?_ both.upcoming .concat
        rw [whole, rest]
        generalize following : upcoming ls₃ l' = s
        rintro (_ | _ | ⟨digit, -⟩ | ⟨digit, -⟩)
        · exact (missing 0 (current_of_upcoming following)).2 rfl
        · cases digit
        · cases digit
      · refine lexed_absorbed begins ?_ both.upcoming fun spelled => ?_
        · rw [whole, rest]
          exact .dot
        · exact absurd (spelled.concat_text rfl) (by decide)
  · rw [if_neg (by simp)] at ran
    by_cases digits : ls₂.currentIs isdigit = true
    · rw [if_neg (by simp [digits]), run_bind_returned] at ran
      obtain ⟨⟨r, ls₃⟩, l₃, read, done⟩ := ran
      obtain ⟨rfl, rfl⟩ := run_done.mp done
      obtain ⟨d, here₁, digit⟩ : ∃ d, ls₂.current = some d ∧ isdigit d = true := by
        cases current : ls₂.current with
        | none => simp [LexState.currentIs, current] at digits
        | some d => exact ⟨d, rfl, by simpa [LexState.currentIs, current] using digits⟩
      have buff : ls₂.buff = [byte '.'] := by rw [first.buff, empty, List.nil_append]
      obtain ⟨reading', text, taken, outcome⟩ :=
        readNumeral_took point (first.reading reading) here₁ digit (by simp [buff, byte]) read
      have taken' : upcoming ls l = (byte '.' :: text) ++ upcoming ls₃ l' := by rw [whole, taken, List.cons_append]
      refine ⟨reading', ?_⟩
      obtain ⟨zero, absorbed⟩ | ⟨numeral, converts, plain⟩ := outcome
      · refine lexed_absorbed begins ?_ taken' fun spelled => spelled.number_noNul rfl (List.mem_cons_of_mem _ zero)
        rw [whole, upcoming_some here₁]
        rw [upcoming_some here₁] at absorbed
        exact .fraction digit absorbed
      · rw [buff, first.decpoint] at converts
        refine lexed_spelled begins ?_ taken' (.fraction numeral converts)
        rw [whole, upcoming_some here₁]
        rw [upcoming_some here₁] at plain
        rintro (_ | _ | ⟨digit', -⟩ | ⟨-, absorbed⟩)
        · cases digit
        · cases digit
        · cases digit'
        · exact plain absorbed
    · rw [if_pos (by simpa using digits)] at ran
      obtain ⟨rfl, rfl⟩ := run_done.mp ran
      refine ⟨first.reading reading, lexed_spelled begins ?_ first.upcoming (.single (by decide))⟩
      rw [whole]
      generalize following : upcoming ls₂ l' = s
      rintro (_ | _ | ⟨digit, -⟩ | @⟨d, rest, digit, -⟩)
      · exact (missing 0 (current_of_upcoming following)).2 rfl
      · exact (missing (byte '.') (current_of_upcoming following)).1 (by decide)
      · cases digit
      · apply digits
        rw [LexState.currentIs, current_of_upcoming following]
        exact digit

/-- An opening bracket, and what it begins. -/
theorem bracket_lexed {a : Token N × LexState N} (reading : Reading ls l) (empty : ls.buff = [])
    (here : ls.current = some (byte '['))
    (ran : (skipSep fuel ls >>= fun r =>
      if r.1 ≥ 0 then readLongString fuel r.2 false r.1 >>= fun r => pure (⟨tkString, .ts r.1⟩, r.2)
      else if r.1 = -1 then pure (⟨(byte '[').toNat, seminfo⟩, r.2)
      else lexerror r.2 "invalid long string delimiter" tkString).run l = .ok (a, l')) :
    Reading a.2 l' ∧ Lexed env ls l a.1 a.2 l' := by
  rw [run_bind_returned] at ran
  obtain ⟨⟨sep, ls₁⟩, l₁, skipped, ran⟩ := ran
  obtain ⟨k, isSep, took, -⟩ := skipSep_took here skipped
  have begins : Begins (upcoming ls l) := by
    rw [upcoming_some here]
    exact begins_of_first (by decide) (by decide) l
  have plain : ¬ AbsorbsNul (upcoming ls l) := by
    rw [upcoming_some here]
    exact not_absorbsNul (by decide) (by decide) l
  simp only at ran
  by_cases long : sep ≥ 0
  · have again : ls₁.current = some (byte '[') := by
      by_contra other
      rw [if_neg other] at isSep
      omega
    rw [if_pos again] at isSep
    subst isSep
    rw [if_pos long, run_bind_returned] at ran
    obtain ⟨⟨ts, ls₂⟩, l₂, read, done⟩ := ran
    obtain ⟨rfl, rfl⟩ := run_done.mp done
    obtain ⟨s, passed, noCloser, isString⟩ := readLongString_took again (fun _ => by rw [took.buff, empty, List.nil_append]) read
    obtain rfl := isString rfl
    have whole := took.toPassed.trans passed
    refine ⟨whole.reading reading, lexed_spelled begins plain ?_ (.long noCloser)⟩
    rw [whole.upcoming]
    simp [openBracket]
  · rw [if_neg long] at ran
    by_cases single : sep = -1
    · rw [if_pos single] at ran
      obtain ⟨rfl, rfl⟩ := run_done.mp ran
      have none : k = 0 := by
        split at isSep <;> omega
      subst none
      exact ⟨took.reading reading, lexed_spelled begins plain took.upcoming (.single (by decide))⟩
    · rw [if_neg single] at ran
      exact absurd ran (lexerror_run _ _)

/-- A name or a reserved word. -/
theorem word_lexed {a : Token N × LexState N} (reading : Reading ls l) (empty : ls.buff = []) (here : ls.current = some c)
    (letter : isalpha c = true ∨ c = byte '_') (begins : Begins (upcoming ls l)) (plain : ¬ AbsorbsNul (upcoming ls l))
    (ran : (saveAndNext ls >>= fun ls => saveWhile isalnumOrUnderscore fuel ls >>= fun ls =>
      match reserved ls.buff with
      | some token => pure (⟨token, seminfo⟩, ls)
      | none => pure (⟨tkName, .ts ls.buff⟩, ls)).run l = .ok (a, l')) :
    Reading a.2 l' ∧ Lexed env ls l a.1 a.2 l' := by
  rw [run_bind_returned] at ran
  obtain ⟨ls₁, l₁, moved, ran⟩ := ran
  rw [run_bind_returned] at ran
  obtain ⟨ls₂, l₂, letters, ran⟩ := ran
  have first := saveAndNext_took here moved
  have whole := first.trans (saveWhile_took first.ended letters)
  have word : Word ([c] ++ (upcoming ls₁ l₁).takeWhile isalnumOrUnderscore) := .mk letter List.all_takeWhile
  rw [whole.buff, empty, List.nil_append] at ran
  split at ran
  · next token isReserved =>
    obtain ⟨rfl, rfl⟩ := run_done.mp ran
    exact ⟨whole.reading reading, lexed_spelled begins plain whole.upcoming (.reserved word isReserved)⟩
  · next isName =>
    obtain ⟨rfl, rfl⟩ := run_done.mp ran
    exact ⟨whole.reading reading, lexed_spelled begins plain whole.upcoming (.name word isName)⟩

theorem isBreak_isspace (isLine : c = byte '\n' ∨ c = byte '\r') : isspace c = true := by
  obtain rfl | rfl := isLine <;> rfl

theorem lineBreak_blanks (isLine : c = byte '\n' ∨ c = byte '\r') (l : List UInt8) {blanks start : List UInt8}
    (isBlanks : Blanks blanks start) : Blanks (lineBreak c l ++ blanks) start := by
  have space := isBreak_isspace isLine
  cases l with
  | nil => exact .space space isBlanks
  | cons d l =>
    simp only [lineBreak]
    split
    · next pair => exact .space space (.space (isBreak_isspace ((isBreak_iff d).mp pair.1)) isBlanks)
    · exact .space space isBlanks

/-! ## An iteration of `glex` -/

/-- What the next `left` iterations take is a token. -/
def LexesOn (env : Library N) (fuel left : Nat) : Prop :=
  ∀ {ls l}, Reading ls l → ls.buff = [] → ∀ {seminfo t ls' l'}, (glexLoop env fuel left ls seminfo).run l = .ok ((t, ls'), l') →
    Reading ls' l' ∧ Lexed env ls l t ls' l'

/-- A minus, or a comment and what comes after it. -/
theorem minus_lexed (lexesOn : LexesOn env fuel left) (reading : Reading ls l) (empty : ls.buff = [])
    (here : ls.current = some (byte '-'))
    (ran : (next ls >>= fun ls =>
      if ls.current ≠ some (byte '-') then pure (⟨(byte '-').toNat, seminfo⟩, ls)
      else next ls >>= fun ls => readComment fuel ls >>= fun ls => glexLoop env fuel left ls seminfo).run l = .ok ((t, ls'), l')) :
    Reading ls' l' ∧ Lexed env ls l t ls' l' := by
  rw [run_bind_returned] at ran
  obtain ⟨ls₁, l₁, moved, ran⟩ := ran
  have first := next_took here moved
  by_cases single : ls₁.current ≠ some (byte '-')
  · rw [if_pos single] at ran
    obtain ⟨same, rfl⟩ := run_done.mp ran
    obtain ⟨rfl, rfl⟩ := Prod.mk.inj same
    refine ⟨first.reading reading, lexed_spelled ?_ ?_ first.upcoming (.single (by decide))⟩
    · refine ⟨fun c head => ?_, fun comment => single ?_⟩
      · rw [upcoming_some here] at head
        obtain rfl := Option.some.inj head
        rfl
      · rw [first.upcoming] at comment
        obtain ⟨after, whole⟩ := (List.cons_prefix_cons.mp comment).2
        rw [current_of_upcoming whole.symm]
        rfl
    · rw [upcoming_some here]
      exact not_absorbsNul (by decide) (by decide) l
  · rw [if_neg single, run_bind_returned] at ran
    obtain ⟨ls₂, l₂, moved', ran⟩ := ran
    have both := first.trans (next_took (not_not.mp single) moved')
    rw [run_bind_returned] at ran
    obtain ⟨ls₃, l₃, comment, rest⟩ := ran
    obtain ⟨empty', ⟨body, passed, plain, lineEnds, short⟩ | ⟨n, body, passed, noCloser⟩⟩ :=
      readComment_passed both.ended (by simp [both.buff, empty]) comment
    · have whole := both.toPassed.trans passed
      obtain ⟨reading', lexed⟩ := lexesOn (whole.reading reading) empty' rest
      refine ⟨reading', lexed.skip whole fun blanks start after isBlanks => ?_⟩
      have isComment : Blanks (byte '-' :: byte '-' :: (body ++ blanks)) start := by
        refine .line plain (fun c head => lineEnds c ?_) (fun n starts => short n ?_) isBlanks
        · rw [current_of_upcoming after, head]
        · rwa [passed.upcoming, after]
      exact isComment
    · have whole := both.toPassed.trans passed
      obtain ⟨reading', lexed⟩ := lexesOn (whole.reading reading) empty' rest
      refine ⟨reading', lexed.skip whole fun blanks start after isBlanks => ?_⟩
      have isComment : Blanks (byte '-' :: byte '-' :: (openBracket n ++ body ++ closeBracket n ++ blanks)) start :=
        .long noCloser isBlanks
      exact isComment

/-- One of the characters that may be followed by an equals sign. -/
theorem comparison_lexed {sign : UInt8} {withEqual : Nat} (reading : Reading ls l) (here : ls.current = some c) (isSign : c = sign)
    (single : isSingle sign = true) (notMinus : sign ≠ byte '-') (notDot : sign ≠ byte '.')
    (spelled : ∀ s : SemInfo N, Spelled env ls.decpoint ⟨withEqual, s⟩ [sign, byte '='])
    (ran : (orEqual ls c withEqual >>= fun r => pure (⟨r.1, seminfo⟩, r.2)).run l = .ok ((t, ls'), l')) :
    Reading ls' l' ∧ Lexed env ls l t ls' l' := by
  subst isSign
  rw [run_bind_returned] at ran
  obtain ⟨⟨token, ls₁⟩, l₁, compared, done⟩ := ran
  obtain ⟨same, rfl⟩ := run_done.mp done
  obtain ⟨rfl, rfl⟩ := Prod.mk.inj same
  exact orEqual_lexed reading here single notMinus notDot spelled compared

/-- A string in quotes. -/
theorem quoted_lexed (reading : Reading ls l) (empty : ls.buff = []) (here : ls.current = some c)
    (quotes : c = quote ∨ c = apostrophe)
    (ran : (readString fuel ls c >>= fun r => pure (⟨tkString, .ts r.1⟩, r.2)).run l = .ok ((t, ls'), l')) :
    Reading ls' l' ∧ Lexed env ls l t ls' l' := by
  rw [run_bind_returned] at ran
  obtain ⟨⟨ts, ls₁⟩, l₁, read, done⟩ := ran
  obtain ⟨same, rfl⟩ := run_done.mp done
  obtain ⟨rfl, rfl⟩ := Prod.mk.inj same
  obtain ⟨text, passed, quoted⟩ := readString_took here empty read
  refine ⟨passed.reading reading, lexed_spelled ?_ ?_ passed.upcoming (.quoted quotes quoted)⟩
  · rw [upcoming_some here]
    obtain rfl | rfl := quotes <;> exact begins_of_first (by decide) (by decide) l
  · rw [upcoming_some here]
    obtain rfl | rfl := quotes <;> exact not_absorbsNul (by decide) (by decide) l

/-- Every iteration of `glex` skips a blank or takes the token. -/
theorem glexLoop_lexed (point : env.decimalPoint ≠ 0) (reading : Reading ls l) (empty : ls.buff = [])
    (ran : (glexLoop env fuel left ls seminfo).run l = .ok ((t, ls'), l')) : Reading ls' l' ∧ Lexed env ls l t ls' l' := by
  induction left generalizing ls l seminfo t ls' l' with
  | zero => cases ran
  | succ left inductionHypothesis =>
    have lexesOn : LexesOn env fuel left := fun reading empty _ _ _ _ ran => inductionHypothesis reading empty ran
    rw [glexLoop] at ran
    cases here : ls.current with
    | none =>
      rw [here] at ran
      obtain ⟨same, rfl⟩ := run_done.mp ran
      obtain ⟨rfl, rfl⟩ := Prod.mk.inj same
      have nothing : upcoming ls' l' = [] := by simp [upcoming, here]
      refine ⟨reading, lexed_spelled ?_ ?_ rfl .eos⟩ <;> rw [nothing]
      · exact ⟨by simp, by decide⟩
      · rintro ⟨⟩
    | some c =>
      rw [here] at ran
      simp only at ran
      by_cases isLine : c = byte '\n' ∨ c = byte '\r'
      · rw [if_pos isLine, run_bind_returned] at ran
        obtain ⟨ls₁, l₁, skipped, rest⟩ := ran
        obtain ⟨took, -⟩ := inclinenumber_took here skipped
        obtain ⟨reading', lexed⟩ := lexesOn (took.reading reading) (by rw [took.buff, empty, List.nil_append]) rest
        exact ⟨reading', lexed.skip took.toPassed fun _ _ _ isBlanks => lineBreak_blanks isLine l isBlanks⟩
      rw [if_neg isLine] at ran
      by_cases minus : c = byte '-'
      · subst minus
        rw [if_pos rfl] at ran
        exact minus_lexed lexesOn reading empty here ran
      rw [if_neg minus] at ran
      by_cases bracket : c = byte '['
      · subst bracket
        rw [if_pos rfl] at ran
        exact @bracket_lexed _ _ _ _ _ _ _ (t, ls') reading empty here ran
      rw [if_neg bracket] at ran
      by_cases equal : c = byte '='
      · rw [if_pos equal] at ran
        exact comparison_lexed reading here equal (by decide) (by decide) (by decide) (fun _ => .eq) ran
      rw [if_neg equal] at ran
      by_cases less : c = byte '<'
      · rw [if_pos less] at ran
        exact comparison_lexed reading here less (by decide) (by decide) (by decide) (fun _ => .le) ran
      rw [if_neg less] at ran
      by_cases greater : c = byte '>'
      · rw [if_pos greater] at ran
        exact comparison_lexed reading here greater (by decide) (by decide) (by decide) (fun _ => .ge) ran
      rw [if_neg greater] at ran
      by_cases tilde : c = byte '~'
      · rw [if_pos tilde] at ran
        exact comparison_lexed reading here tilde (by decide) (by decide) (by decide) (fun _ => .ne) ran
      rw [if_neg tilde] at ran
      by_cases quotes : c = quote ∨ c = apostrophe
      · rw [if_pos quotes] at ran
        exact quoted_lexed reading empty here quotes ran
      rw [if_neg quotes] at ran
      by_cases dot : c = byte '.'
      · subst dot
        rw [if_pos rfl] at ran
        exact @dot_lexed _ _ _ _ _ _ _ (t, ls') point reading empty here ran
      rw [if_neg dot] at ran
      by_cases space : isspace c = true
      · rw [if_pos space, run_bind_returned] at ran
        obtain ⟨ls₁, l₁, moved, rest⟩ := ran
        have took := next_took here moved
        obtain ⟨reading', lexed⟩ := lexesOn (took.reading reading) (by rw [took.buff, empty, List.nil_append]) rest
        exact ⟨reading', lexed.skip took.toPassed fun _ _ _ isBlanks => .space space isBlanks⟩
      rw [if_neg space] at ran
      rw [Bool.not_eq_true] at space
      by_cases digit : isdigit c = true
      · rw [if_pos digit, run_bind_returned] at ran
        obtain ⟨⟨r, ls₁⟩, l₁, read, done⟩ := ran
        obtain ⟨same, rfl⟩ := run_done.mp done
        obtain ⟨rfl, rfl⟩ := Prod.mk.inj same
        exact number_lexed point reading empty here digit space read
      rw [if_neg digit] at ran
      rw [Bool.not_eq_true] at digit
      have begins : Begins (upcoming ls l) := by
        rw [upcoming_some here]
        exact begins_of_first space minus l
      have plain : ¬ AbsorbsNul (upcoming ls l) := by
        rw [upcoming_some here]
        exact not_absorbsNul dot digit l
      by_cases letter : isalpha c = true ∨ c = byte '_'
      · rw [if_pos letter] at ran
        exact @word_lexed _ _ _ _ _ _ _ _ (t, ls') reading empty here letter begins plain ran
      · rw [if_neg letter, run_bind_returned] at ran
        obtain ⟨ls₁, l₁, moved, done⟩ := ran
        obtain ⟨same, rfl⟩ := run_done.mp done
        obtain ⟨rfl, rfl⟩ := Prod.mk.inj same
        have took := next_took here moved
        have single : isSingle c = true := by
          simp only [not_or, Bool.not_eq_true] at letter quotes
          simp [isSingle, space, digit, letter, quotes]
        exact ⟨took.reading reading, lexed_spelled begins plain took.upcoming (.single single)⟩

/-! ## The tokens of a stream -/

/-- A lexer that has been given a stream and has been asked for tokens. -/
inductive Reached (env : Library N) : LexState N → List UInt8 → Prop where
  | setinput {ls ls' : LexState N} {l l' : List UInt8} : (setinput ls).run l = .ok (ls', l') → Reached env ls' l'
  /-- `gafqX_next` sets the line before it calls `glex` -/
  | lastline {ls : LexState N} {l : List UInt8} {line : Nat} : Reached env ls l → Reached env { ls with lastline := line } l
  | next {ls ls' : LexState N} {l l' : List UInt8} {fuel : Nat} : Reached env ls l →
      (gafqXNext env fuel ls).run l = .ok (ls', l') → Reached env ls' l'
  | lookahead {ls ls' : LexState N} {l l' : List UInt8} {fuel : Nat} : Reached env ls l →
      (gafqXLookahead env fuel ls).run l = .ok (ls', l') → Reached env ls' l'

theorem glex_lexed (point : env.decimalPoint ≠ 0) (reading : Reading ls l)
    (ran : (glex env fuel ls seminfo).run l = .ok ((t, ls'), l')) : Reading ls' l' ∧ Lexed env ls l t ls' l' :=
  @glexLoop_lexed _ _ { ls with buff := [] } _ _ _ _ _ _ _ point ⟨reading.ended, reading.decpoint⟩ rfl ran

theorem Reached.reading (point : env.decimalPoint ≠ 0) (reached : Reached env ls l) : Reading ls l := by
  induction reached with
  | @setinput ls ls' l l' ran =>
    rw [Lexer.setinput, next_run] at ran
    obtain ⟨rfl, rfl⟩ := Prod.mk.inj (Except.ok.inj ran)
    refine ⟨?_, (by decide : byte '.' ≠ 0)⟩
    cases l with
    | nil => exact fun _ => rfl
    | cons c l => exact nofun
  | lastline _ reading => exact ⟨reading.ended, reading.decpoint⟩
  | @next ls ls' l l' fuel _ ran reading =>
    rw [gafqXNext] at ran
    simp only at ran
    split at ran
    · obtain ⟨rfl, rfl⟩ := run_done.mp ran
      exact ⟨reading.ended, reading.decpoint⟩
    · rw [run_bind_returned] at ran
      obtain ⟨⟨t, ls₁⟩, l₁, lexed, done⟩ := ran
      obtain ⟨rfl, rfl⟩ := run_done.mp done
      have reading' := (@glex_lexed _ _ { ls with lastline := ls.linenumber } _ _ _ _ _ _ point ⟨reading.ended, reading.decpoint⟩ lexed).1
      exact ⟨reading'.ended, reading'.decpoint⟩
  | lookahead _ ran reading =>
    rw [gafqXLookahead, run_bind_returned] at ran
    obtain ⟨⟨t, ls₁⟩, l₁, lexed, done⟩ := ran
    obtain ⟨rfl, rfl⟩ := run_done.mp done
    have reading' := (glex_lexed point reading lexed).1
    exact ⟨reading'.ended, reading'.decpoint⟩

/-- Behind the blanks, the bytes that `glex` takes spell the token that it returns, if and only if no NUL stands
where it looks for another character of the token. -/
theorem glex_spelled_iff (point : env.decimalPoint ≠ 0) (reached : Reached env ls l)
    (ran : (glex env fuel ls seminfo).run l = .ok ((t, ls'), l')) :
    ∃ blanks start, upcoming ls l = blanks ++ start ∧ Blanks blanks start ∧ Begins start ∧
      ((∃ text, start = text ++ upcoming ls' l' ∧ Spelled env ls.decpoint t text) ↔ ¬ AbsorbsNul start) :=
  (glex_lexed point (reached.reading point) ran).2

/-- A lexer that has read its first character. -/
def firstState (c : UInt8) : LexState Unit :=
  { startState c with lastline := 1, lookahead := ⟨tkEos, .r ()⟩, decpoint := byte '.' }

theorem firstState_reached (env : Library Unit) (c : UInt8) (l : List UInt8) : Reached env (firstState c) l :=
  @Reached.setinput _ env blankState _ (c :: l) _ rfl

theorem glex_spelled_iff_concat :
    ∃ ls', (glex noNumbers 4 (firstState (byte '.')) (.r ())).run [byte '.'] = .ok ((⟨tkConcat, .r ()⟩, ls'), []) ∧
    ∃ blanks start, upcoming (firstState (byte '.')) [byte '.'] = blanks ++ start ∧ Blanks blanks start ∧ Begins start ∧
      ((∃ text, start = text ++ upcoming ls' [] ∧ Spelled noNumbers (byte '.') ⟨tkConcat, .r ()⟩ text) ↔ ¬ AbsorbsNul start) :=
  ⟨{ firstState (byte '.') with current := none, buff := [byte '.', byte '.'] }, rfl,
    @glex_spelled_iff _ noNumbers _ _ _ _ _ _ 4 (by decide) (firstState_reached _ _ _) rfl⟩

/-- A dot and a NUL are returned as `..`. -/
theorem glex_dotNul : ∃ ls', Reached noNumbers (firstState (byte '.')) [0] ∧
    (glex noNumbers 4 (firstState (byte '.')) (.r ())).run [0] = .ok ((⟨tkConcat, .r ()⟩, ls'), []) ∧
    ¬ ∃ blanks text, upcoming (firstState (byte '.')) [0] = blanks ++ (text ++ upcoming ls' []) ∧
      Blanks blanks (text ++ upcoming ls' []) ∧ Spelled noNumbers (byte '.') ⟨tkConcat, .r ()⟩ text := by
  refine ⟨{ firstState (byte '.') with current := none, buff := [byte '.', 0] }, firstState_reached _ _ _, rfl, ?_⟩
  rintro ⟨blanks, text, taken, -, spelled⟩
  obtain rfl := spelled.concat_text rfl
  -- the last byte would be a dot
  have last := congrArg List.getLast? taken
  simp [upcoming, bytes, byte, firstState, startState] at last

end Gafq.Lexer
