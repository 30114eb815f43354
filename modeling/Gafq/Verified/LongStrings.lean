import Gafq.Verified.QuotedStrings

/-! # Long strings

`read_long_string` reads a string between long brackets.  Brackets of other levels are saved while
`skip_sep` looks at them, and a bracket on which it stops may begin another one; the text between the
brackets is found again in the buffer by its place.
-/

namespace Gafq.Lexer

open Base Program

variable {N : Type} {ls ls' : LexState N} {c d : UInt8} {rest l s : List UInt8} {n k fuel : Nat}

/-! ## Line breaks -/

/-- A newline or a carriage return. -/
def isBreak (c : UInt8) : Bool := c == byte '\n' || c == byte '\r'

/-- What follows the line break that begins with `c`, before `s`. -/
def afterBreak (c : UInt8) : (s : List UInt8) → List UInt8
  | [] => []
  | d :: s => if isBreak d ∧ d ≠ c then s else d :: s

/-- The text with a newline for every line break. -/
def normalized : List UInt8 → List UInt8
  | [] => []
  | [c] => [if isBreak c then byte '\n' else c]
  | c :: d :: s =>
    if isBreak c then
      if isBreak d ∧ d ≠ c then byte '\n' :: normalized s else byte '\n' :: normalized (d :: s)
    else c :: normalized (d :: s)

/-- The text without a line break at its start. -/
def dropBreak : List UInt8 → List UInt8
  | [] => []
  | c :: s => if isBreak c then afterBreak c s else c :: s

theorem normalized_break (isLine : isBreak c = true) (s : List UInt8) :
    normalized (c :: s) = byte '\n' :: normalized (afterBreak c s) := by
  cases s with
  | nil => simp [normalized, afterBreak, isLine]
  | cons d s =>
    simp only [normalized, afterBreak, isLine, if_true]
    split <;> rfl

theorem normalized_plain (plain : isBreak c = false) (s : List UInt8) : normalized (c :: s) = c :: normalized s := by
  cases s with
  | nil => simp [normalized, plain]
  | cons d s => simp [normalized, plain]

theorem normalized_replicate (plain : isBreak c = false) (k : Nat) (s : List UInt8) :
    normalized (List.replicate k c ++ s) = List.replicate k c ++ normalized s := by
  induction k with
  | zero => rfl
  | succ k inductionHypothesis => simp [List.replicate_succ, normalized_plain plain, inductionHypothesis]

theorem afterBreak_length (c : UInt8) (s : List UInt8) : (afterBreak c s).length ≤ s.length := by
  cases s with
  | nil => exact Nat.le_refl _
  | cons d s =>
    simp only [afterBreak]
    split <;> simp

theorem afterBreak_suffix (c : UInt8) (s : List UInt8) : afterBreak c s <:+ s := by
  cases s with
  | nil => exact List.suffix_rfl
  | cons d s =>
    simp only [afterBreak]
    split
    · exact List.suffix_cons d s
    · exact List.suffix_rfl

theorem afterBreak_append (plain : isBreak d = false) (c : UInt8) (s rest : List UInt8) :
    afterBreak c (s ++ d :: rest) = afterBreak c s ++ d :: rest := by
  cases s with
  | nil => simp [afterBreak, plain]
  | cons e s =>
    simp only [List.cons_append, afterBreak]
    split <;> rfl

theorem dropBreak_suffix (s : List UInt8) : dropBreak s <:+ s := by
  cases s with
  | nil => exact List.suffix_rfl
  | cons c s =>
    simp only [dropBreak]
    split
    · exact (afterBreak_suffix c s).trans (List.suffix_cons c s)
    · exact List.suffix_rfl

/-- `inclinenumber` skips a line break and counts it. -/
theorem inclinenumber_counts (here : ls.current = some c) (s : List UInt8) :
    (inclinenumber ls).run s =
      (if ls.linenumber + 1 ≥ maxInt then
        syntaxerror { ls with current := (afterBreak c s).head?, linenumber := ls.linenumber + 1 } "chunk has too many lines"
      else pure { ls with current := (afterBreak c s).head?, linenumber := ls.linenumber + 1 }).run (afterBreak c s).tail := by
  rw [inclinenumber, run_bind_ok (next_run ls s)]
  cases s with
  | nil =>
    simp only [LexState.currIsNewline, LexState.currentIs, List.head?_nil, Option.any_none, Bool.false_eq_true, false_and,
      if_false, pure_eq, done_bind, afterBreak]
  | cons d s =>
    simp only [LexState.currIsNewline, LexState.currentIs, List.head?_cons, Option.any_some, List.tail_cons, here, afterBreak]
    by_cases pair : isBreak d = true ∧ d ≠ c
    · have pair' : (d == byte '\n' || d == byte '\r') = true ∧ some d ≠ some c := by simpa [isBreak] using pair
      rw [if_pos pair, if_pos pair', run_bind_ok (next_run _ s)]
    · have pair' : ¬ ((d == byte '\n' || d == byte '\r') = true ∧ some d ≠ some c) := by simpa [isBreak] using pair
      rw [if_neg pair, if_neg pair']
      simp only [pure_eq, done_bind, List.head?_cons, List.tail_cons]

theorem inclinenumber_skips (here : ls.current = some c) (few : ls.linenumber + 1 < maxInt) (s : List UInt8) :
    (inclinenumber ls).run s =
      .ok ({ ls with current := (afterBreak c s).head?, linenumber := ls.linenumber + 1 }, (afterBreak c s).tail) := by
  rw [inclinenumber_counts here, if_neg (by omega)]
  rfl

theorem inclinenumber_refuses (here : ls.current = some c) (many : ls.linenumber + 1 = maxInt) (noToken : ls.t.token = 0)
    (s : List UInt8) : (inclinenumber ls).run s = .error (.syntaxError maxInt "chunk has too many lines" none) := by
  rw [inclinenumber_counts here, if_pos (by omega), many, syntaxerror, lexerror, if_pos noToken]
  rfl

/-! ## Brackets -/

/-- The opening long bracket of level `n`. -/
def openBracket (n : Nat) : List UInt8 := byte '[' :: (List.replicate n (byte '=') ++ [byte '['])

/-- The closing long bracket of level `n`. -/
def closeBracket (n : Nat) : List UInt8 := byte ']' :: (List.replicate n (byte '=') ++ [byte ']'])

/-- The text holds no closing bracket, also not one that ends in the bracket after it. -/
def NoCloser (n : Nat) (s : List UInt8) : Prop := ∀ i < s.length, ¬ closeBracket n <+: (s ++ closeBracket n).drop i

instance (n : Nat) (s : List UInt8) : Decidable (NoCloser n s) :=
  inferInstanceAs (Decidable (∀ i < s.length, ¬ closeBracket n <+: (s ++ closeBracket n).drop i))

theorem NoCloser.suffix {s' : List UInt8} (none : NoCloser n s) (suffix : s' <:+ s) : NoCloser n s' := by
  obtain ⟨before, rfl⟩ := suffix
  intro i inside closes
  have later := none (before.length + i) (by simp only [List.length_append]; omega)
  rw [List.append_assoc, List.drop_append, List.drop_of_length_le (by omega), List.nil_append,
    Nat.add_sub_cancel_left] at later
  exact later closes

/-- There are never `m` characters `=` in a row. -/
def RunsBelow (m : Nat) (s : List UInt8) : Prop := ∀ k, List.replicate k (byte '=') <:+: s → k < m

theorem RunsBelow.suffix {m : Nat} {s' : List UInt8} (runs : RunsBelow m s) (suffix : s' <:+ s) : RunsBelow m s' :=
  fun k within => runs k (within.trans suffix.isInfix)

theorem RunsBelow.of_length {m : Nat} (short : s.length < m) : RunsBelow m s := by
  intro k within
  have le := within.length_le
  rw [List.length_replicate] at le
  omega

/-- The loop of `skip_sep` reads up to the first character that is not a `=`. -/
theorem skipSepLoop_run (differs : d ≠ byte '=') : ∀ {k fuel : Nat} {ls : LexState N} (count : Int), k < fuel → count + k ≤ intMax →
    ls.current = (List.replicate k (byte '=') ++ d :: l).head? → Sized ls → ls.buff.length + k ≤ 2 ^ 63 →
    ∃ ls', (skipSepLoop fuel ls count).run (List.replicate k (byte '=') ++ d :: l).tail = .ok ((count + k, ls'), l) ∧
      ls'.current = some d ∧ Follows ls ls' (List.replicate k (byte '=')) 0 := by
  intro k
  induction k with
  | zero =>
    intro fuel ls count enough small here sized fits
    obtain ⟨fuel, rfl⟩ : ∃ m, fuel = m + 1 := ⟨fuel - 1, by omega⟩
    have stops : ¬ ls.current = some (byte '=') := by
      rw [here]
      simpa using differs
    refine ⟨ls, ?_, here, .refl sized⟩
    rw [skipSepLoop, if_neg stops]
    simp [run]
  | succ k inductionHypothesis =>
    intro fuel ls count enough small here sized fits
    obtain ⟨fuel, rfl⟩ : ∃ m, fuel = m + 1 := ⟨fuel - 1, by omega⟩
    obtain ⟨ls₁, saved, here₁, follows⟩ := saveAndNext_run sized (by omega) here (List.replicate k (byte '=') ++ d :: l)
    have length := congrArg List.length follows.buff
    simp only [List.length_append, List.length_singleton] at length
    obtain ⟨ls', ran, current, follows'⟩ := inductionHypothesis (count + 1) (Nat.lt_of_succ_lt_succ enough) (by omega) here₁
      follows.sized (by omega)
    refine ⟨ls', ?_, current, follows.trans follows'⟩
    have equals : ls.current = some (byte '=') := here
    rw [skipSepLoop, if_pos equals]
    show ((saveAndNext ls >>= fun ls => if count < intMax then skipSepLoop fuel ls (count + 1) else .fail .intOverflow).run
      (List.replicate k (byte '=') ++ d :: l)) = _
    have total : count + 1 + (k : Int) = count + (k + 1 : Nat) := by omega
    have inRange : count < intMax := by omega
    rw [run_bind_ok saved, if_pos inRange, ran, total]

/-- `skip_sep` counts the `=` after a bracket, and stops on the next bracket or what there is instead of it. -/
theorem skipSep_run (differs : d ≠ byte '=') (here : ls.current = some c) (sized : Sized ls)
    (fits : ls.buff.length + 1 + k ≤ 2 ^ 63) (enough : k < fuel) (small : k ≤ intMax) :
    ∃ ls', (skipSep fuel ls).run (List.replicate k (byte '=') ++ d :: l) =
        .ok ((if d = c then (k : Int) else -k - 1, ls'), l) ∧
      ls'.current = some d ∧ Follows ls ls' (c :: List.replicate k (byte '=')) 0 := by
  obtain ⟨ls₁, saved, here₁, follows⟩ := saveAndNext_run sized (by omega) here (List.replicate k (byte '=') ++ d :: l)
  have length := congrArg List.length follows.buff
  simp only [List.length_append, List.length_singleton] at length
  obtain ⟨ls', ran, current, follows'⟩ := skipSepLoop_run differs 0 enough (by omega) here₁ follows.sized
    (by omega)
  refine ⟨ls', ?_, current, follows.trans follows'⟩
  rw [skipSep, run_bind_ok saved, run_bind_ok ran]
  simp [run, current, here]

/-! ## The loop -/

theorem isBreak_iff (c : UInt8) : isBreak c = true ↔ c = byte '\n' ∨ c = byte '\r' := by simp [isBreak]

/-- A run of `=` after a bracket, and the rest of the text. -/
theorem exists_run (s : List UInt8) : ∃ k s', s = List.replicate k (byte '=') ++ s' ∧ s'.head? ≠ some (byte '=') := by
  induction s with
  | nil => exact ⟨0, [], rfl, nofun⟩
  | cons c s inductionHypothesis =>
    by_cases equals : c = byte '='
    · obtain ⟨k, s', rfl, stops⟩ := inductionHypothesis
      exact ⟨k + 1, s', by rw [equals]; rfl, stops⟩
    · exact ⟨0, c :: s, rfl, by simpa using equals⟩

/-- The text before a closing bracket goes on with a character that is not a `=`. -/
theorem head_close (n : Nat) {s' : List UInt8} (stops : s'.head? ≠ some (byte '=')) (rest : List UInt8) :
    ∃ d l, s' ++ (closeBracket n ++ rest) = d :: l ∧ d ≠ byte '=' ∧ (s' = [] → d = byte ']') ∧ (∀ e, s'.head? = some e → d = e) := by
  cases s' with
  | nil => exact ⟨_, _, rfl, by decide, fun _ => rfl, nofun⟩
  | cons e s' => exact ⟨e, s' ++ (closeBracket n ++ rest), rfl, by simpa using stops, nofun, fun _ same => by simpa using same⟩

section

variable {sep : Int} {left : Nat}

theorem longStringLoop_open (here : ls.current = some (byte '[')) :
    longStringLoop fuel false sep (left + 1) ls = (skipSep fuel ls >>= fun r =>
      if r.1 = sep then saveAndNext r.2 >>= fun ls =>
        if sep = 0 then lexerror ls "nesting of [[...]] is deprecated" (byte '[').toNat else longStringLoop fuel false sep left ls
      else longStringLoop fuel false sep left r.2) := by
  rw [longStringLoop, here]
  rfl

theorem longStringLoop_close (here : ls.current = some (byte ']')) :
    longStringLoop fuel false sep (left + 1) ls = (skipSep fuel ls >>= fun r =>
      if r.1 = sep then saveAndNext r.2 else longStringLoop fuel false sep left r.2) := by
  rw [longStringLoop, here]
  rfl

theorem longStringLoop_break (here : ls.current = some c) (isLine : isBreak c = true) :
    longStringLoop fuel false sep (left + 1) ls = (save ls (byte '\n') >>= fun ls =>
      inclinenumber ls >>= longStringLoop fuel false sep left) := by
  rw [isBreak_iff] at isLine
  rw [longStringLoop, here]
  obtain rfl | rfl := isLine <;> rfl

theorem longStringLoop_plain (here : ls.current = some c) (notOpen : c ≠ byte '[') (notClose : c ≠ byte ']')
    (plain : isBreak c = false) :
    longStringLoop fuel false sep (left + 1) ls = (saveAndNext ls >>= longStringLoop fuel false sep left) := by
  rw [← Bool.not_eq_true, isBreak_iff] at plain
  rw [longStringLoop, here]
  simp only [notOpen, notClose, plain, if_false, Bool.false_eq_true]

end

/-- The loop is about to read `s` and the closing bracket of level `n` after it. -/
structure Ready (n fuel left : Nat) (rest s : List UInt8) (ls : LexState N) : Prop where
  current : ls.current = (s ++ (closeBracket n ++ rest)).head?
  noCloser : NoCloser n s
  noNested : n = 0 → ¬ [byte '[', byte '['] <:+: s
  runs : RunsBelow (2 ^ 31) s
  level : n < 2 ^ 31
  sized : Sized ls
  fits : ls.buff.length + s.length + (n + 2) ≤ 2 ^ 63
  few : ls.linenumber + (normalized s).count (byte '\n') < maxInt
  enough : s.length < left
  skips : s.length + n < fuel

/-- The loop reads `s` and the closing bracket. -/
def LoopReads (n fuel left : Nat) (rest s : List UInt8) (ls : LexState N) : Prop :=
  ∃ ls', (longStringLoop fuel false n left ls).run (s ++ (closeBracket n ++ rest)).tail = .ok (ls', rest.tail) ∧
    ls'.current = rest.head? ∧ Follows ls ls' (normalized s ++ closeBracket n) ((normalized s).count (byte '\n'))

/-- Some iterations have saved `piece` and go on at `s'`. -/
structure Advance (n fuel left : Nat) (rest s : List UInt8) (ls : LexState N) (piece s' : List UInt8) (ls' : LexState N) : Prop where
  ran : (longStringLoop fuel false n (left + 1) ls).run (s ++ (closeBracket n ++ rest)).tail =
    (longStringLoop fuel false n left ls').run (s' ++ (closeBracket n ++ rest)).tail
  current : ls'.current = (s' ++ (closeBracket n ++ rest)).head?
  follows : Follows ls ls' piece (piece.count (byte '\n'))
  suffix : s' <:+ s
  normal : normalized s = piece ++ normalized s'
  shorter : piece.length + s'.length ≤ s.length
  moves : piece ≠ []

theorem Ready.advance {left : Nat} {piece s' : List UInt8} (ready : Ready n fuel (left + 1) rest s ls)
    (advance : Advance n fuel left rest s ls piece s' ls') : Ready n fuel left rest s' ls' := by
  have shorter := advance.shorter
  have enough := ready.enough
  have skips := ready.skips
  have fits := ready.fits
  have few := ready.few
  have positive := List.length_pos_iff.mpr advance.moves
  have buff := congrArg List.length advance.follows.buff
  have lines := advance.follows.lines
  simp only [List.length_append] at buff
  rw [advance.normal, List.count_append] at few
  constructor
  case current => exact advance.current
  case noCloser => exact ready.noCloser.suffix advance.suffix
  case noNested => exact fun zero nested => ready.noNested zero (nested.trans advance.suffix.isInfix)
  case runs => exact ready.runs.suffix advance.suffix
  case level => exact ready.level
  case sized => exact advance.follows.sized
  all_goals omega

theorem Advance.reads {left : Nat} {piece s' : List UInt8} (advance : Advance n fuel left rest s ls piece s' ls')
    (reads : LoopReads n fuel left rest s' ls') : LoopReads n fuel (left + 1) rest s ls := by
  obtain ⟨final, ran, current, follows⟩ := reads
  refine ⟨final, advance.ran.trans ran, current, ?_⟩
  rw [advance.normal, List.count_append, List.append_assoc]
  exact advance.follows.trans follows

section

variable {left : Nat}

theorem Ready.plain (ready : Ready n fuel (left + 1) rest (c :: s) ls) (notOpen : c ≠ byte '[') (notClose : c ≠ byte ']')
    (plain : isBreak c = false) : ∃ ls', Advance n fuel left rest (c :: s) ls [c] s ls' := by
  have fits := ready.fits
  obtain ⟨ls', saved, current, follows⟩ :=
    saveAndNext_run ready.sized (by omega) ready.current (s ++ (closeBracket n ++ rest))
  have notLine : c ≠ byte '\n' := by
    rintro rfl
    cases plain
  refine ⟨ls', ?_, current, ?_, List.suffix_cons c s, normalized_plain plain s, by simp [Nat.add_comm], by simp⟩
  · rw [longStringLoop_plain ready.current notOpen notClose plain]
    exact run_bind_ok saved
  · simpa [notLine] using follows

theorem Ready.lineBreak (ready : Ready n fuel (left + 1) rest (c :: s) ls) (isLine : isBreak c = true) :
    ∃ ls', Advance n fuel left rest (c :: s) ls [byte '\n'] (afterBreak c s) ls' := by
  have fits := ready.fits
  have few := ready.few
  have shorter := afterBreak_length c s
  rw [normalized_break isLine, List.count_cons_self] at few
  obtain ⟨ls₁, saved, current, follows⟩ := save_follows ready.sized (by omega) (byte '\n')
  have lines : ls₁.linenumber = ls.linenumber := follows.lines
  have skipped := inclinenumber_skips (current.trans ready.current) (by omega) (s ++ (closeBracket n ++ rest))
  have after : afterBreak c (s ++ (closeBracket n ++ rest)) = afterBreak c s ++ (closeBracket n ++ rest) :=
    afterBreak_append (by decide) c s _
  rw [after] at skipped
  refine ⟨{ ls₁ with current := (afterBreak c s ++ (closeBracket n ++ rest)).head?, linenumber := ls₁.linenumber + 1 }, ?_, rfl,
    ⟨follows.buff, by simp [lines], follows.token, follows.lookahead, follows.sized⟩,
    (afterBreak_suffix c s).trans (List.suffix_cons c s), normalized_break isLine s, by simp; omega, by simp⟩
  rw [longStringLoop_break ready.current isLine, saved, pure_eq, done_bind]
  exact run_bind_ok skipped

/-- After a bracket that is no long bracket of the level, the loop goes on where `skip_sep` has stopped. -/
theorem Ready.skips_run {bracket : UInt8} {s' : List UInt8}
    (ready : Ready n fuel (left + 1) rest (bracket :: (List.replicate k (byte '=') ++ s')) ls)
    (stops : s'.head? ≠ some (byte '=')) :
    ∃ ls' d l, s' ++ (closeBracket n ++ rest) = d :: l ∧
      (skipSep fuel ls).run (bracket :: (List.replicate k (byte '=') ++ s') ++ (closeBracket n ++ rest)).tail =
        .ok ((if d = bracket then (k : Int) else -k - 1, ls'), l) ∧
      ls'.current = some d ∧ Follows ls ls' (bracket :: List.replicate k (byte '=')) 0 := by
  have fits := ready.fits
  have skips := ready.skips
  simp only [List.length_cons, List.length_append, List.length_replicate] at fits skips
  obtain ⟨d, l, text, differs, -⟩ := head_close n stops rest
  have small := ready.runs k ⟨[bracket], s', by simp⟩
  obtain ⟨ls', ran, current, follows⟩ :=
    @skipSep_run _ ls bracket d l k fuel differs ready.current ready.sized (by omega) (by omega) (Nat.le_sub_one_of_lt small)
  refine ⟨ls', d, l, text, ?_, current, follows⟩
  rw [List.cons_append, List.append_assoc, text]
  exact ran

/-- The characters of a bracket are saved as they are. -/
theorem advance_of_skip {bracket : UInt8} {s' l : List UInt8} (isBracket : bracket = byte '[' ∨ bracket = byte ']')
    (text : s' ++ (closeBracket n ++ rest) = d :: l) (current : ls'.current = some d)
    (follows : Follows ls ls' (bracket :: List.replicate k (byte '=')) 0)
    (ran : (longStringLoop fuel false n (left + 1) ls).run (bracket :: (List.replicate k (byte '=') ++ s') ++ (closeBracket n ++ rest)).tail =
      (longStringLoop fuel false n left ls').run l) :
    Advance n fuel left rest (bracket :: (List.replicate k (byte '=') ++ s')) ls (bracket :: List.replicate k (byte '=')) s' ls' := by
  have noLine : (bracket :: List.replicate k (byte '=')).count (byte '\n') = 0 := by
    rw [List.count_eq_zero]
    intro among
    obtain same | among := List.mem_cons.mp among
    · obtain rfl | rfl := isBracket <;> cases same
    · exact absurd (List.eq_of_mem_replicate among) (by decide)
  have plain : isBreak bracket = false := by obtain rfl | rfl := isBracket <;> rfl
  constructor
  case ran => rwa [text]
  case current => rw [current, text]; rfl
  case follows => rwa [noLine]
  case suffix => exact ⟨bracket :: List.replicate k (byte '='), by simp⟩
  case normal => rw [normalized_plain plain, normalized_replicate (by decide), List.cons_append]
  case shorter =>
    simp only [List.length_cons, List.length_append, List.length_replicate]
    omega
  case moves => simp

theorem Ready.opening (ready : Ready n fuel (left + 1) rest (byte '[' :: s) ls) :
    ∃ piece s' ls', Advance n fuel left rest (byte '[' :: s) ls piece s' ls' := by
  have fits := ready.fits
  obtain ⟨k, s', rfl, stops⟩ := exists_run s
  obtain ⟨ls₁, d, l, text, skipped, current, follows⟩ := ready.skips_run stops
  have started := @longStringLoop_open _ _ fuel n left ready.current
  by_cases nested : (if d = byte '[' then (k : Int) else -k - 1) = n
  · -- a nested bracket, of which the second half is saved as well
    obtain ⟨rfl, rfl⟩ : d = byte '[' ∧ k = n := by
      split at nested
      · next same => exact ⟨same, by omega⟩
      · omega
    obtain ⟨t, rfl⟩ : ∃ t, s' = byte '[' :: t := by
      cases s' with
      | nil => cases text
      | cons e t => exact ⟨t, by rw [(List.cons.inj text).1]⟩
    have positive : k ≠ 0 := fun zero => ready.noNested zero ⟨[], t, by rw [zero]; rfl⟩
    have length := congrArg List.length follows.buff
    simp only [List.length_cons, List.length_append, List.length_replicate] at length fits
    obtain ⟨ls₂, saved, current', follows'⟩ := saveAndNext_run follows.sized (by omega) current l
    have piece : byte '[' :: (List.replicate k (byte '=') ++ byte '[' :: t) =
        openBracket k ++ t := by simp [openBracket]
    have noLine : (openBracket k).count (byte '\n') = 0 := by
      rw [List.count_eq_zero]
      intro among
      simp only [openBracket, List.mem_cons, List.mem_append, List.mem_replicate, List.not_mem_nil, or_false] at among
      obtain same | ⟨-, same⟩ | same := among <;> cases same
    refine ⟨openBracket k, t, ls₂, ?_, ?_, ?_, ⟨openBracket k, piece.symm⟩, ?_, ?_, nofun⟩
    · rw [started, run_bind_ok skipped, if_pos nested, run_bind_ok saved, if_neg (by omega), ← (List.cons.inj text).2]
      rfl
    · rw [current', ← (List.cons.inj text).2]
      rfl
    · rw [noLine]
      exact follows.trans follows'
    · rw [normalized_plain (by decide), normalized_replicate (by decide), normalized_plain (by decide)]
      simp [openBracket]
    · simp only [openBracket, List.length_cons, List.length_append, List.length_replicate, List.length_nil]
      omega
  · refine ⟨_, _, _, advance_of_skip (.inl rfl) text current follows ?_⟩
    rw [started, run_bind_ok skipped, if_neg nested]

theorem Ready.closing (ready : Ready n fuel (left + 1) rest (byte ']' :: s) ls) :
    ∃ piece s' ls', Advance n fuel left rest (byte ']' :: s) ls piece s' ls' := by
  obtain ⟨k, s', rfl, stops⟩ := exists_run s
  obtain ⟨ls₁, d, l, text, skipped, current, follows⟩ := ready.skips_run stops
  have started := @longStringLoop_close _ _ fuel n left ready.current
  have other : (if d = byte ']' then (k : Int) else -k - 1) ≠ n := by
    intro same
    obtain ⟨rfl, rfl⟩ : d = byte ']' ∧ k = n := by
      split at same
      · next isBracket => exact ⟨isBracket, by omega⟩
      · omega
    apply ready.noCloser 0 (by simp)
    have closes : [byte ']'] <+: s' ++ closeBracket k := by
      cases s' with
      | nil => exact ⟨_, rfl⟩
      | cons e t =>
        rw [(List.cons.inj text).1]
        exact ⟨_, rfl⟩
    obtain ⟨after, whole⟩ := closes
    refine ⟨after, ?_⟩
    rw [List.drop_zero, List.cons_append, List.append_assoc, ← whole]
    simp [closeBracket]
  refine ⟨_, _, _, advance_of_skip (.inr rfl) text current follows ?_⟩
  rw [started, run_bind_ok skipped, if_neg other]

/-- The loop ends with the closing bracket. -/
theorem Ready.ends (ready : Ready n fuel (left + 1) rest [] ls) : LoopReads n fuel (left + 1) rest [] ls := by
  have fits := ready.fits
  have skips := ready.skips
  simp only [List.length_nil] at fits skips
  obtain ⟨ls₁, skipped, current, follows⟩ := @skipSep_run _ ls (byte ']') (byte ']') rest n fuel (by decide) ready.current
    ready.sized (by omega) (by omega) (Nat.le_sub_one_of_lt ready.level)
  have length := congrArg List.length follows.buff
  simp only [List.length_append, List.length_cons, List.length_replicate] at length
  obtain ⟨ls₂, saved, current', follows'⟩ := saveAndNext_run follows.sized (by omega) current rest
  have text : ([] ++ (closeBracket n ++ rest)).tail = List.replicate n (byte '=') ++ byte ']' :: rest := by simp [closeBracket]
  refine ⟨ls₂, ?_, current', follows.trans follows'⟩
  rw [longStringLoop_close ready.current, text, run_bind_ok skipped, if_pos (by simp)]
  exact saved

end

/-- The loop reads a text without closing brackets, and the closing bracket after it. -/
theorem Ready.reads : ∀ {left : Nat} {s : List UInt8} {ls : LexState N}, Ready n fuel left rest s ls →
    LoopReads n fuel left rest s ls := by
  intro left
  induction left with
  | zero => exact fun ready => absurd ready.enough (Nat.not_lt_zero _)
  | succ left inductionHypothesis =>
    intro s ls ready
    cases s with
    | nil => exact ready.ends
    | cons c s =>
      have goesOn : ∃ piece s' ls', Advance n fuel left rest (c :: s) ls piece s' ls' := by
        by_cases opens : c = byte '['
        · subst opens
          exact ready.opening
        · by_cases closes : c = byte ']'
          · subst closes
            exact ready.closing
          · cases isLine : isBreak c with
            | true => exact ⟨_, _, ready.lineBreak isLine⟩
            | false => exact ⟨_, _, ready.plain opens closes isLine⟩
      obtain ⟨piece, s', ls', advance⟩ := goesOn
      exact advance.reads (inductionHypothesis (ready.advance advance))

/-! ## Long strings -/

/-- A line break at the start is skipped. -/
theorem firstBreak_run (current : ls.current = (s ++ (closeBracket n ++ rest)).head?) (sized : Sized ls)
    (few : ls.linenumber + (normalized s).count (byte '\n') < maxInt) :
    ∃ ls' lines, (if ls.currIsNewline then inclinenumber ls else pure ls : LexM (LexState N)).run (s ++ (closeBracket n ++ rest)).tail =
        .ok (ls', (dropBreak s ++ (closeBracket n ++ rest)).tail) ∧
      ls'.current = (dropBreak s ++ (closeBracket n ++ rest)).head? ∧ Follows ls ls' [] lines ∧
      lines + (normalized (dropBreak s)).count (byte '\n') = (normalized s).count (byte '\n') := by
  have test (c : UInt8) (here : ls.current = some c) : ls.currIsNewline = isBreak c := by
    simp [LexState.currIsNewline, LexState.currentIs, here, isBreak]
  cases s with
  | nil =>
    rw [test _ current, if_neg (by decide)]
    exact ⟨ls, 0, rfl, current, .refl sized, rfl⟩
  | cons c s =>
    rw [test c current]
    cases isLine : isBreak c with
    | false =>
      have kept : dropBreak (c :: s) = c :: s := by simp [dropBreak, isLine]
      rw [kept, if_neg (by simp)]
      exact ⟨ls, 0, rfl, current, .refl sized, Nat.zero_add _⟩
    | true =>
      have dropped : dropBreak (c :: s) = afterBreak c s := by simp [dropBreak, isLine]
      have after : afterBreak c (s ++ (closeBracket n ++ rest)) = afterBreak c s ++ (closeBracket n ++ rest) :=
        afterBreak_append (by decide) c s _
      rw [normalized_break isLine, List.count_cons_self] at few ⊢
      have skipped := inclinenumber_skips current (by omega) (s ++ (closeBracket n ++ rest))
      rw [after] at skipped
      rw [dropped, if_pos rfl]
      exact ⟨_, 1, skipped, rfl, ⟨by simp, rfl, rfl, rfl, sized⟩, Nat.add_comm _ _⟩

/-- `read_long_string` on the second half of the opening bracket. -/
theorem readLongString_run (current : ls.current = some (byte '[')) (opened : ls.buff = byte '[' :: List.replicate n (byte '='))
    (sized : Sized ls) (none : NoCloser n s) (noNested : n = 0 → ¬ [byte '[', byte '['] <:+: s)
    (level : n < 2 ^ 30 - 2) (runs : RunsBelow (2 ^ 31) s)
    (fits : s.length + 2 * (n + 2) ≤ 2 ^ 63) (few : ls.linenumber + (normalized s).count (byte '\n') < maxInt)
    (enough : s.length + n < fuel) :
    ∃ ls', (readLongString fuel ls false n).run (s ++ (closeBracket n ++ rest)) =
        .ok ((normalized (dropBreak s), ls'), rest.tail) ∧ ls'.current = rest.head? := by
  have shorter := (dropBreak_suffix s).length_le
  have opening : ls.buff.length = n + 1 := by simp [opened]
  obtain ⟨ls₁, saved, current₁, follows₁⟩ := saveAndNext_run sized (by omega) current (s ++ (closeBracket n ++ rest))
  have lines₁ : ls₁.linenumber = ls.linenumber := follows₁.lines
  obtain ⟨ls₂, lines, skipped, current₂, follows₂, total⟩ := firstBreak_run current₁ follows₁.sized (by omega)
  have buff₂ : ls₂.buff = openBracket n := by simp [follows₂.buff, follows₁.buff, opened, openBracket]
  have length₂ : ls₂.buff.length = n + 2 := by simp [buff₂, openBracket]
  have lines₂ := follows₂.lines
  have ready : Ready n fuel fuel rest (dropBreak s) ls₂ :=
    ⟨current₂, none.suffix (dropBreak_suffix s), fun zero nested => noNested zero (nested.trans (dropBreak_suffix s).isInfix),
      runs.suffix (dropBreak_suffix s), by omega, follows₂.sized, by omega, by omega, by omega, by omega⟩
  obtain ⟨ls', ran, current', follows'⟩ := ready.reads
  refine ⟨ls', ?_, current'⟩
  rw [readLongString, run_bind_ok saved, run_bind_ok skipped, run_bind_ok ran]
  have value : (ls'.buff.drop (2 + n)).take (ls'.buff.length - 2 * (2 + n)) = normalized (dropBreak s) := by
    have closing : (closeBracket n).length = n + 2 := by simp [closeBracket]
    have start : ls₂.buff.length = 2 + n := by omega
    have whole : ls'.buff.length - 2 * (2 + n) = (normalized (dropBreak s)).length := by
      rw [follows'.buff]
      simp only [List.length_append]
      omega
    rw [whole, follows'.buff, ← start, List.drop_left, List.take_left]
  have inRange : 2 * (2 + n) ≤ intMax := by
    rw [intMax]
    omega
  simp [run, value, inRange]

theorem glex_bracket {env : Library N} (here : ls.current = some (byte '[')) (seminfo : SemInfo N) :
    glex env (fuel + 1) ls seminfo = (skipSep (fuel + 1) { ls with buff := [] } >>= fun r =>
      if r.1 ≥ 0 then readLongString (fuel + 1) r.2 false r.1 >>= fun r => pure (⟨tkString, .ts r.1⟩, r.2)
      else if r.1 = -1 then pure (⟨(byte '[').toNat, seminfo⟩, r.2)
      else lexerror r.2 "invalid long string delimiter" tkString) := by
  rw [glex, glexLoop, here]
  rfl

/-- A long bracket, a text and the closing bracket are one string: the text without a line break at its start
and with newlines for all others.  The lexer stops after the closing bracket. -/
theorem glex_longString {env : Library N} (n : Nat) (s rest : List UInt8) (here : ls.current = (openBracket n).head?)
    (sized : Sized ls) (none : NoCloser n s) (noNested : n = 0 → ¬ [byte '[', byte '['] <:+: s)
    (level : n < 2 ^ 30 - 2) (runs : RunsBelow (2 ^ 31) s)
    (fits : s.length + 2 * (n + 2) ≤ 2 ^ 63) (few : ls.linenumber + (normalized s).count (byte '\n') < maxInt)
    (enough : s.length + n < fuel) (seminfo : SemInfo N) :
    ∃ ls', (glex env fuel ls seminfo).run ((openBracket n).tail ++ s ++ closeBracket n ++ rest) =
        .ok ((⟨tkString, .ts (normalized (dropBreak s))⟩, ls'), rest.tail) ∧ ls'.current = rest.head? := by
  obtain ⟨fuel, rfl⟩ : ∃ m, fuel = m + 1 := ⟨fuel - 1, by omega⟩
  have text : (openBracket n).tail ++ s ++ closeBracket n ++ rest =
      List.replicate n (byte '=') ++ byte '[' :: (s ++ (closeBracket n ++ rest)) := by simp [openBracket]
  obtain ⟨ls₁, skipped, current, follows⟩ := @skipSep_run N { ls with buff := [] } (byte '[') (byte '[')
    (s ++ (closeBracket n ++ rest)) n (fuel + 1) (by decide) here sized (by simp only [List.length_nil]; omega) (by omega)
    (by rw [intMax]; omega)
  have lines : ls₁.linenumber = ls.linenumber := follows.lines
  obtain ⟨ls', ran, current'⟩ := @readLongString_run N ls₁ rest s n (fuel + 1) current follows.buff follows.sized none noNested level
    runs fits (by omega) (by omega)
  refine ⟨ls', ?_, current'⟩
  rw [glex_bracket here, text, run_bind_ok skipped, if_pos (by simp)]
  simp only [if_true]
  rw [run_bind_ok ran]
  rfl

/-- The state before the first character of a chunk. -/
def startState (c : UInt8) : LexState Unit := { blankState with current := some c, linenumber := 1, buffsize := minBuffer }

theorem glex_longString_pairs : ∃ ls', (glex noNumbers 16 (startState (byte '[')) (.r ())).run
      (bytes "=[\n]]a\r\n]=" ++ bytes "b]=]" ++ bytes "c") = .ok ((⟨tkString, .ts (bytes "]]a\n]=b")⟩, ls'), []) ∧
    ls'.current = some (byte 'c') :=
  @glex_longString _ _ _ noNumbers 1 (bytes "\n]]a\r\n]=b") (bytes "c") rfl ⟨5, by decide, rfl⟩ (by decide) (by decide)
    (by decide) (.of_length (by decide)) (by decide) (by decide) (by decide) (.r ())

/-! ## Too many lines -/

/-- The loop refuses the line break that makes too many lines. -/
theorem longStringLoop_newlines (m : Nat) : ∀ {left : Nat} {ls : LexState N}, ls.current = some (byte '\n') → Sized ls →
    ls.buff.length + (m + 1) ≤ 2 ^ 63 → ls.linenumber < maxInt → maxInt ≤ ls.linenumber + (m + 1) → m < left →
    ls.t.token = 0 → (longStringLoop fuel false n left ls).run (List.replicate m (byte '\n') ++ l) =
      .error (.syntaxError maxInt "chunk has too many lines" none) := by
  induction m with
  | zero =>
    intro left ls here sized fits few many enough noToken
    obtain ⟨left, rfl⟩ : ∃ k, left = k + 1 := ⟨left - 1, by omega⟩
    obtain ⟨ls₁, saved, current, follows⟩ := save_follows sized (by omega) (byte '\n')
    have lines : ls₁.linenumber = ls.linenumber := follows.lines
    rw [longStringLoop_break here (by decide), saved, pure_eq, done_bind]
    exact run_bind_error (inclinenumber_refuses (current.trans here) (by omega) (by rw [follows.token, noToken]) _)
  | succ m inductionHypothesis =>
    intro left ls here sized fits few many enough noToken
    obtain ⟨left, rfl⟩ : ∃ k, left = k + 1 := ⟨left - 1, by omega⟩
    obtain ⟨ls₁, saved, current, follows⟩ := save_follows sized (by omega) (byte '\n')
    have lines : ls₁.linenumber = ls.linenumber := follows.lines
    have length := congrArg List.length follows.buff
    simp only [List.length_append, List.length_singleton] at length
    rw [longStringLoop_break here (by decide), saved, pure_eq, done_bind]
    by_cases last : ls₁.linenumber + 1 = maxInt
    · exact run_bind_error (inclinenumber_refuses (current.trans here) last (by rw [follows.token, noToken]) _)
    · rw [run_bind_ok (inclinenumber_skips (current.trans here) (by omega) _)]
      -- two newlines are two line breaks
      have single : afterBreak (byte '\n') (List.replicate (m + 1) (byte '\n') ++ l) = List.replicate (m + 1) (byte '\n') ++ l := by
        simp [List.replicate_succ, afterBreak]
      rw [single]
      exact @inductionHypothesis left { ls₁ with current := some (byte '\n'), linenumber := ls₁.linenumber + 1 } rfl follows.sized
        (by simp only; omega) (by simp only; omega) (by simp only; omega) (by omega) (by simp only [follows.token, noToken])

/-- A text with too many line breaks. -/
def manyLines : List UInt8 := List.replicate maxInt (byte '\n')

theorem not_mem_manyLines {c : UInt8} (differs : c ≠ byte '\n') : c ∉ manyLines :=
  fun among => differs (List.eq_of_mem_replicate among)

theorem manyLines_noCloser : NoCloser 0 manyLines := by
  intro i inside closes
  have first : (manyLines ++ closeBracket 0).drop i = byte '\n' :: ((manyLines.drop (i + 1)) ++ closeBracket 0) := by
    have here : manyLines[i] = byte '\n' := List.getElem_replicate ..
    rw [List.drop_append_of_le_length (Nat.le_of_lt inside), List.drop_eq_getElem_cons inside, here]
    rfl
  rw [first] at closes
  exact absurd (List.cons_prefix_cons.mp closes).1 (by decide)

theorem glex_longString_manyLines : NoCloser 0 manyLines ∧ ¬ [byte '[', byte '['] <:+: manyLines ∧
    (glex noNumbers (2 ^ 32) (startState (byte '[')) (.r ())).run ((openBracket 0).tail ++ manyLines ++ closeBracket 0) =
      .error (.syntaxError maxInt "chunk has too many lines" none) := by
  refine ⟨manyLines_noCloser, fun nested => ?_, ?_⟩
  · exact not_mem_manyLines (by decide) (nested.subset List.mem_cons_self)
  · have text : (openBracket 0).tail ++ manyLines ++ closeBracket 0 =
        List.replicate 0 (byte '=') ++ byte '[' :: (byte '\n' :: (List.replicate (maxInt - 1) (byte '\n') ++ closeBracket 0)) := rfl
    obtain ⟨ls₁, skipped, current₁, follows₁⟩ := @skipSep_run Unit { startState (byte '[') with buff := [] } (byte '[') (byte '[')
      (byte '\n' :: (List.replicate (maxInt - 1) (byte '\n') ++ closeBracket 0)) 0 (2 ^ 32) (by decide) rfl ⟨5, by decide, rfl⟩
      (by decide) (by decide) (by decide)
    have buff₁ : ls₁.buff = [byte '['] := follows₁.buff
    obtain ⟨ls₂, saved, current₂, follows₂⟩ := saveAndNext_run follows₁.sized (by simp [buff₁]) current₁
      (byte '\n' :: (List.replicate (maxInt - 1) (byte '\n') ++ closeBracket 0))
    have buff₂ : ls₂.buff = [byte '[', byte '['] := by simp [follows₂.buff, buff₁]
    have lines₂ : ls₂.linenumber = 1 := follows₂.lines.trans follows₁.lines
    have single : afterBreak (byte '\n') (List.replicate (maxInt - 1) (byte '\n') ++ closeBracket 0) =
        byte '\n' :: (List.replicate (maxInt - 2) (byte '\n') ++ closeBracket 0) := rfl
    have skips := inclinenumber_skips current₂ (by rw [lines₂]; decide) (List.replicate (maxInt - 1) (byte '\n') ++ closeBracket 0)
    rw [single] at skips
    have refused := @longStringLoop_newlines Unit (closeBracket 0) 0 (2 ^ 32) (maxInt - 2) (2 ^ 32)
      { ls₂ with current := some (byte '\n'), linenumber := ls₂.linenumber + 1 } rfl follows₂.sized (by simp only [buff₂]; decide)
      (by simp only [lines₂]; decide) (by simp only [lines₂]; decide) (by decide) (by rw [follows₂.token, follows₁.token]; rfl)
    have isLine : ls₂.currIsNewline = true := by
      simp only [LexState.currIsNewline, LexState.currentIs, current₂]
      rfl
    have failed : (readLongString (2 ^ 32) ls₁ false 0).run
        (byte '\n' :: (List.replicate (maxInt - 1) (byte '\n') ++ closeBracket 0)) =
          .error (.syntaxError maxInt "chunk has too many lines" none) := by
      rw [readLongString, run_bind_ok saved, isLine, if_pos rfl, List.tail_cons, run_bind_ok skips]
      exact run_bind_error refused
    rw [show (2 : Nat) ^ 32 = (2 ^ 32 - 1) + 1 from rfl] at skipped failed ⊢
    rw [glex_bracket rfl, text, run_bind_ok skipped, if_pos (by simp)]
    exact run_bind_error failed

end Gafq.Lexer
