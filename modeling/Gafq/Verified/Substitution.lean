import Gafq.Verified.AuxBuffers

/-! # Substitution

`gafqL_gsub` continues after the pattern that it has found.  It replaces the occurrences from left to right,
and for the empty pattern, which is found where it continues, it never ends.
-/

namespace Gafq.AuxLib

/-! ## Occurrences -/

/-- `before` ends where `p` first occurs in `s`, and `after` is what follows it. -/
structure Splits (s p before after : List UInt8) : Prop where
  whole : s = before ++ p ++ after
  first : ∀ i < before.length, ¬ p <+: s.drop i

/-- `out` is `s` with every non-overlapping occurrence of `p`, found from left to right, replaced by `r`. -/
inductive Replaced (p r : List UInt8) : (s out : List UInt8) → Prop where
  | suffix {s : List UInt8} : (∀ i, ¬ p <+: s.drop i) → Replaced p r s s
  | occurrence {s before after out : List UInt8} :
      Splits s p before after → Replaced p r after out → Replaced p r s (before ++ r ++ out)

variable {s p r : List UInt8} {α : Type}

theorem strstr_splits {wild : Nat} (found : strstr s p = some wild) :
    Splits s p (s.take wild) (s.drop (wild + p.length)) := by
  obtain ⟨occurs, i, inside, here, before⟩ := List.find?_eq_some_iff_getElem.mp found
  simp only [List.getElem_range, List.length_range] at here inside
  subst here
  constructor
  · obtain ⟨after, rest⟩ := List.isPrefixOf_iff_prefix.mp occurs
    have whole := List.take_append_drop i s
    rw [← List.drop_drop, ← rest, List.drop_left, List.append_assoc, rest, whole]
  · intro j early starts
    have earlier : j < i := by
      simp only [List.length_take] at early
      omega
    have none := before j earlier
    simp only [List.getElem_range, Bool.not_eq_eq_eq_not, Bool.not_true] at none
    rw [List.isPrefixOf_iff_prefix.mpr starts] at none
    cases none

theorem strstr_none (missing : strstr s p = none) (i : Nat) : ¬ p <+: s.drop i := by
  simp only [strstr, List.find?_eq_none, List.mem_range, Bool.not_eq_true] at missing
  intro starts
  rw [← List.isPrefixOf_iff_prefix] at starts
  by_cases inside : i < s.length + 1
  · rw [missing i inside] at starts
    cases starts
  · rw [List.drop_of_length_le (by omega), ← List.drop_length (l := s), missing s.length (by omega)] at starts
    cases starts

/-- The empty string occurs at the start of every string. -/
theorem strstr_empty : strstr s [] = some 0 := by
  simp [strstr, List.range_succ_eq_map]

/-! ## The loop -/

/-- What is left gets shorter when the pattern is not empty. -/
theorem Splits.shorter {before after : List UInt8} (splits : Splits s p before after) (pattern : p ≠ []) :
    after.length < s.length := by
  have positive := List.length_pos_iff.mpr pattern
  have lengths := congrArg List.length splits.whole
  simp only [List.length_append] at lengths
  omega

theorem gsubLoop_replaces (size : Nat) (pattern : p ≠ []) {b : Buffer α} {a : StrLib.Buffer} {base : List (StackValue α)}
    (fuel : Nat) (enough : s.length < fuel) (held : b.Represents a base) :
    ∃ b' a' out, gsubLoop size p r fuel s b = some b' ∧ b'.Represents a' base ∧ a'.content = a.content ++ out ∧
      Replaced p r s out := by
  induction fuel generalizing s b a with
  | zero => omega
  | succ fuel inductionHypothesis =>
    cases found : strstr s p with
    | none =>
      obtain ⟨b', added, same⟩ := held.addgstring size s
      exact ⟨b', _, s, by simpa [gsubLoop, found] using added, same, by simp, .suffix (strstr_none found)⟩
    | some wild =>
      have splits := strstr_splits found
      have shorter := splits.shorter pattern
      obtain ⟨b₁, pushed, same₁⟩ := held.addgstring size (s.take wild)
      obtain ⟨b₂, replaced, same₂⟩ := same₁.addgstring size r
      have left : (s.drop (wild + p.length)).length < fuel := by omega
      obtain ⟨b', a', out, rest, final, content, meaning⟩ := inductionHypothesis left same₂
      refine ⟨b', a', s.take wild ++ r ++ out, ?_, final, ?_, .occurrence splits meaning⟩
      · simp [gsubLoop, found, pushed, replaced, rest]
      · simp [content]

/-- The empty pattern is found again where the loop continues. -/
theorem gsubLoop_empty (size fuel : Nat) (s : List UInt8) {b : Buffer α} {a : StrLib.Buffer} {base : List (StackValue α)}
    (held : b.Represents a base) : gsubLoop size [] r fuel s b = none := by
  induction fuel generalizing b a with
  | zero => rfl
  | succ fuel inductionHypothesis =>
    obtain ⟨b₁, pushed, same₁⟩ := held.addgstring size (s.take 0)
    obtain ⟨b₂, replaced, same₂⟩ := same₁.addgstring size r
    have again := inductionHypothesis same₂
    simp only [gsubLoop, strstr_empty, pushed, replaced, Option.bind_eq_bind, Option.bind_some, List.length_nil,
      Nat.add_zero, List.drop_zero, again]

theorem gsub_empty (size fuel : Nat) (s r : List UInt8) (stack : List (StackValue α)) :
    gsub size fuel s [] r stack = none := by
  simp [gsub, gsubLoop_empty size fuel s (Buffer.buffinit_represents stack)]

theorem gsub_replaces (size : Nat) (s r : List UInt8) (pattern : p ≠ []) (stack : List (StackValue α)) :
    ∃ out, gsub size (s.length + 1) s p r stack = some (.string out :: stack) ∧ Replaced p r s out := by
  obtain ⟨b, a, out, ran, held, content, meaning⟩ :=
    gsubLoop_replaces (r := r) size pattern _ (Nat.lt_succ_self s.length) (Buffer.buffinit_represents stack)
  obtain ⟨b', pushed, left, -⟩ := held.pushresult
  refine ⟨out, ?_, meaning⟩
  have whole : a.content = out := by simpa [StrLib.Buffer.content] using content
  simp [gsub, ran, pushed, left, StrLib.Buffer.pushresult_eq, whole]

/-- `gafqL_gsub` ends, with every occurrence of the pattern replaced, just for patterns that are not empty. -/
theorem gsub_replaces_iff (size : Nat) (s p r : List UInt8) (stack : List (StackValue α)) :
    (∃ fuel out, gsub size fuel s p r stack = some (.string out :: stack) ∧ Replaced p r s out) ↔ p ≠ [] := by
  constructor
  · rintro ⟨fuel, out, ran, -⟩ empty
    rw [empty, gsub_empty] at ran
    cases ran
  · intro pattern
    exact ⟨_, gsub_replaces size s r pattern stack⟩

/-- With an empty pattern there is no result after any number of iterations. -/
theorem gsub_endless : ¬ ∃ fuel out, gsub 512 fuel [97] [] [98] [.other ()] = some (.string out :: [.other ()]) := by
  rintro ⟨fuel, out, ran⟩
  rw [gsub_empty] at ran
  cases ran

end Gafq.AuxLib
