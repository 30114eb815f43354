import Gafq.StrLib.Format

/-! # Formats with strings

What `string.format` does with a format of literal bytes, `%%` and `%s`.  An argument that is shorter than
100 bytes passes through `sprintf`, which stops at a NUL.
-/

namespace Gafq.StrLib

variable {N : Type}

/-- An item of a format without numbers, flags, width and precision. -/
inductive FormatItem where
  | literal (c : UInt8) (notEsc : c ≠ formatEsc)
  | percent
  | string

namespace FormatItem

/-- How the item is written in a format. -/
def source : FormatItem → List UInt8
  | literal c _ => [c]
  | percent => [formatEsc, formatEsc]
  | string => [formatEsc, byte 's']

end FormatItem

/-- The number of arguments that a format needs. -/
def needed : List FormatItem → Nat
  | [] => 0
  | .string :: items => needed items + 1
  | _ :: items => needed items

/-- The literal bytes, a `%` for each `%%`, and for each `%s` what is shown of its argument. -/
def formatted (shown : List UInt8 → List UInt8) : List FormatItem → List (List UInt8) → List UInt8
  | .literal c _ :: items, args => c :: formatted shown items args
  | .percent :: items, args => formatEsc :: formatted shown items args
  | .string :: items, a :: args => shown a ++ formatted shown items args
  | .string :: _, [] | [], _ => []

/-- What the source shows of an argument. -/
def shownArgument (a : List UInt8) : List UInt8 := if 100 ≤ a.length then a else (CString.ofBytes a).chars

variable {conv : Sprintf N} {size : Nat}

theorem scanformat_string (rest : List UInt8) : scanformat (byte 's' :: rest) = .ok ([formatEsc, byte 's'], 0) := by
  have notFlag : byte 's' ∉ formatFlags := by decide
  have notDigit : isdigit (byte 's') = false := by decide
  have notDot : byte 's' ≠ byte '.' := by decide
  have noNul : (CString.ofBytes [byte 's']).chars = [byte 's'] := by decide
  have noFlags : ((byte 's' :: rest).takeWhile (· ∈ formatFlags)).length = 0 := by simp [notFlag]
  have few : ¬ formatFlags.length + 1 ≤ 0 := by decide
  simp [scanformat, skipDigit, noFlags, few, notDigit, notDot, noNul]

/-! ## One item -/

section

variable {rest : List UInt8} {arg : Nat} {args : List (FormatArg N)} {b : Buffer}

theorem formatLoop_literal {c : UInt8} (notEsc : c ≠ formatEsc) :
    formatLoop conv size (c :: rest) arg args b = formatLoop conv size rest arg args (b.addchar size c) := by
  rw [formatLoop.eq_def]
  simp [notEsc]

theorem formatLoop_percent : formatLoop conv size (formatEsc :: formatEsc :: rest) arg args b =
    formatLoop conv size rest arg args (b.addchar size formatEsc) := by
  rw [formatLoop.eq_def]
  simp

theorem formatLoop_noValue :
    formatLoop conv size (formatEsc :: byte 's' :: rest) arg [] b = .error (.argerror (arg + 1) "no value") := by
  have notEsc : byte 's' ≠ formatEsc := by decide
  rw [formatLoop.eq_def]
  simp [notEsc]

/-- A `%s` adds what is shown of its argument. -/
theorem formatLoop_string {a : List UInt8} : ∃ b', b'.content = b.content ++ shownArgument a ∧
    formatLoop conv size (formatEsc :: byte 's' :: rest) arg (.string a :: args) b =
      formatLoop conv size rest (arg + 1) args b' := by
  have notEsc : byte 's' ≠ formatEsc := by decide
  have item : ∃ b', b'.content = b.content ++ shownArgument a ∧
      formatItem conv size [formatEsc, byte 's'] (byte 's') (arg + 1) (.string a) b = .ok b' := by
    have spec : byte 's' ≠ byte 'c' ∧ byte 's' ∉ numberSpecs ∧ byte 's' ≠ byte 'q' := by decide
    have noPrecision : byte '.' ∉ [formatEsc, byte 's'] := by decide
    by_cases long : 100 ≤ a.length
    · refine ⟨b.addvalue size a, by simp [shownArgument, long], ?_⟩
      rw [formatItem, if_neg spec.1, if_neg spec.2.1, if_neg spec.2.2, if_pos rfl]
      exact if_pos ⟨noPrecision, long⟩
    · refine ⟨b.addgstring size (conv.string [formatEsc, byte 's'] (.ofBytes a)).chars, ?_, ?_⟩
      · rw [Buffer.content_addgstring, shownArgument, if_neg long, show [formatEsc, byte 's'] = [byte '%', byte 's'] from rfl,
          conv.string_plain]
      · rw [formatItem, if_neg spec.1, if_neg spec.2.1, if_neg spec.2.2, if_pos rfl]
        exact if_neg fun both => long both.2
  obtain ⟨b', content, added⟩ := item
  refine ⟨b', content, ?_⟩
  rw [formatLoop.eq_def]
  simp only [ne_eq, not_true_eq_false, if_false, List.head?_cons, Option.some.injEq, notEsc, scanformat_string]
  split
  · next none => cases none
  · next spec rest' found =>
    cases found
    rw [added]

end

/-! ## The whole format -/

/-- With too few arguments there is an error, and otherwise the result is the formatted items. -/
theorem formatLoop_items (items : List FormatItem) (args : List (List UInt8)) (arg : Nat) (b : Buffer) :
    (args.length < needed items ∧
      ∃ e, formatLoop conv size (items.flatMap FormatItem.source) arg (args.map FormatArg.string) b = .error e) ∨
    (needed items ≤ args.length ∧
      ∃ b', formatLoop conv size (items.flatMap FormatItem.source) arg (args.map FormatArg.string) b = .ok b' ∧
        b'.content = b.content ++ formatted shownArgument items args) := by
  induction items generalizing args arg b with
  | nil =>
    right
    exact ⟨Nat.zero_le _, b, by rw [List.flatMap_nil, formatLoop.eq_def], by simp [formatted]⟩
  | cons item items inductionHypothesis =>
    cases item with
    | literal c notEsc =>
      have rest := inductionHypothesis args arg (b.addchar size c)
      simp only [List.flatMap_cons, FormatItem.source, List.cons_append, List.nil_append, formatLoop_literal notEsc]
      simpa [needed, formatted] using rest
    | percent =>
      have rest := inductionHypothesis args arg (b.addchar size formatEsc)
      simp only [List.flatMap_cons, FormatItem.source, List.cons_append, List.nil_append, formatLoop_percent]
      simpa [needed, formatted] using rest
    | string =>
      simp only [List.flatMap_cons, FormatItem.source, List.cons_append, List.nil_append]
      cases args with
      | nil =>
        left
        exact ⟨Nat.succ_pos _, _, formatLoop_noValue⟩
      | cons a args =>
        obtain ⟨b', content, step⟩ := @formatLoop_string _ conv size (items.flatMap FormatItem.source) arg
          (args.map FormatArg.string) b a
        have rest := inductionHypothesis args (arg + 1) b'
        rw [List.map_cons, step]
        simpa [needed, formatted, content] using rest

/-- What is shown of an argument is no longer than the argument, and is all of it unless `sprintf` meets a NUL. -/
theorem shownArgument_le (a : List UInt8) : (shownArgument a).length ≤ a.length := by
  simp only [shownArgument]
  split
  · exact Nat.le_refl _
  · exact (List.takeWhile_prefix _).length_le

theorem shownArgument_eq_iff (a : List UInt8) : shownArgument a = a ↔ (a.length < 100 → 0 ∉ a) := by
  simp only [shownArgument]
  split
  · next long => simp [Nat.not_lt.2 long]
  · next short =>
    have whole : (CString.ofBytes a).chars = a ↔ 0 ∉ a := by
      constructor
      · intro same nul
        apply (CString.ofBytes a).noNul
        rwa [same]
      · intro noNul
        apply List.takeWhile_eq_self_iff.2
        intro c member
        simp only [bne_iff_ne, ne_eq]
        rintro rfl
        exact noNul member
    simp [whole, Nat.not_le.1 short]

theorem formatted_le (items : List FormatItem) (args : List (List UInt8)) :
    (formatted shownArgument items args).length ≤ (formatted id items args).length := by
  induction items generalizing args with
  | nil => exact Nat.le_refl _
  | cons item items inductionHypothesis =>
    cases item with
    | literal c notEsc => simpa [formatted] using inductionHypothesis args
    | percent => simpa [formatted] using inductionHypothesis args
    | string =>
      cases args with
      | nil => exact Nat.le_refl _
      | cons a args =>
        have shown := shownArgument_le a
        have rest := inductionHypothesis args
        simp only [formatted, List.length_append, id]
        omega

/-- The result is the whole one exactly when all of every argument is shown. -/
theorem formatted_eq_iff (items : List FormatItem) (args : List (List UInt8)) :
    formatted shownArgument items args = formatted id items args ↔
      ∀ a ∈ args.take (needed items), shownArgument a = a := by
  induction items generalizing args with
  | nil => simp [formatted, needed]
  | cons item items inductionHypothesis =>
    cases item with
    | literal c notEsc => simpa [formatted, needed] using inductionHypothesis args
    | percent => simpa [formatted, needed] using inductionHypothesis args
    | string =>
      cases args with
      | nil => simp [formatted]
      | cons a args =>
        simp only [formatted, needed, List.take_succ_cons, List.forall_mem_cons, id, ← inductionHypothesis args]
        constructor
        · intro same
          -- nothing that a short argument loses can be made up for by the items behind it
          have shown := shownArgument_le a
          have rest := formatted_le items args
          have lengths := congrArg List.length same
          simp only [List.length_append] at lengths
          exact List.append_inj same (by omega)
        · rintro ⟨same, rest⟩
          rw [same, rest]

theorem strFormat_eq_iff {items : List FormatItem} {args : List (List UInt8)} (enough : needed items ≤ args.length) :
    strFormat conv size (items.flatMap FormatItem.source) (args.map FormatArg.string) = .ok (formatted id items args) ↔
      ∀ a ∈ args.take (needed items), a.length < 100 → 0 ∉ a := by
  obtain ⟨few, -⟩ | ⟨-, b', ran, content⟩ := @formatLoop_items _ conv size items args 1 {}
  · omega
  · rw [strFormat, ran, Except.map, Buffer.pushresult_eq, content]
    simp only [← shownArgument_eq_iff, ← formatted_eq_iff]
    simp [Buffer.content]

/-- `string.format` returns the literal bytes, a `%` for each `%%` and each argument in full exactly when there are enough
arguments, and none that is used and shorter than 100 bytes holds a NUL. -/
theorem strFormat_full_iff (conv : Sprintf N) (size : Nat) (items : List FormatItem) (args : List (List UInt8)) :
    (needed items ≤ args.length ∧ strFormat conv size (items.flatMap FormatItem.source) (args.map FormatArg.string) =
      .ok (formatted id items args)) ↔
    needed items ≤ args.length ∧ ∀ a ∈ args.take (needed items), a.length < 100 → 0 ∉ a :=
  and_congr_right strFormat_eq_iff

/-- A conversion of numbers that has nothing to show. -/
def plainSprintf : Sprintf Int where
  number _ _ _ := ⟨[], by simp⟩
  string _ s := s
  string_plain _ := rfl
  number2str _ := []
  str2number _ := none

/-- A `%s` shows the first byte of three. -/
theorem strFormat_loses_bytes : ¬ ∀ (items : List FormatItem) (args : List (List UInt8)), needed items ≤ args.length →
    strFormat plainSprintf 8192 (items.flatMap FormatItem.source) (args.map FormatArg.string) = .ok (formatted id items args) := by
  intro all
  have full := (strFormat_eq_iff (by decide)).1 (all [.string] [[97, 0, 98]] (by decide))
  exact full [97, 0, 98] (by decide) (by decide) (by decide)

end Gafq.StrLib
