import Gafq.StrLib.Memfind
import Gafq.Verified.PlainSearch

/-! # `gmemfind` stays within its strings

The invariant of the loop is that behind the `l1` characters where a match may begin there is just the room for
the other characters of `s2`.
-/

namespace Gafq.StrLib

open Base Checked

variable {src s2 w : List UInt8} {c : UInt8} {s1 l1 : Nat}

theorem memchrWithin_eq (inside : s1 + l1 ≤ src.length) : memchrWithin src c s1 l1 = .ok (memchr src c s1 l1) := by
  rw [memchrWithin, slice_of_le inside]
  rfl

theorem memcmpWithin_eq {init : Nat} (inside : init + w.length ≤ src.length) :
    memcmpWithin src (c :: w) init w.length = .ok (memcmpEq src init w) := by
  have theirs : slice (c :: w) 1 w.length = .ok w := by
    rw [slice_of_le (by simp [Nat.add_comm])]
    simp
  rw [memcmpWithin, slice_of_le inside, theirs]
  rfl

/-- The loop makes no access outside of the strings, and its lengths do not wrap around. -/
theorem memfindWithinLoop_eq (fuel : Nat) (enough : l1 ≤ fuel) (room : s1 + l1 + w.length = src.length) :
    memfindWithinLoop src (c :: w) w.length (fuel + 1) s1 l1 = .ok (memfindLoop src c w fuel s1 l1) := by
  induction fuel generalizing s1 l1 with
  | zero =>
    obtain rfl := Nat.le_zero.mp enough
    rfl
  | succ fuel inductionHypothesis =>
    unfold memfindWithinLoop memfindLoop
    by_cases more : 0 < l1
    · have first := @memchr_first src c l1 s1
      have char : get (c :: w) 0 = .ok c := rfl
      simp only [gt_iff_lt, more, if_true, char, ok_bind, memchrWithin_eq (show s1 + l1 ≤ src.length by omega)]
      cases found : memchr src c s1 l1 with
      | none => rfl
      | some init =>
        simp only [found] at first
        obtain ⟨after, before, -, -⟩ := first
        simp only [memcmpWithin_eq (show init + 1 + w.length ≤ src.length by omega), ok_bind]
        by_cases same : memcmpEq src (init + 1) w = true
        · simp only [same, if_true]
          rfl
        · have left : sub l1 (init + 1 - s1) = .ok (l1 - (init + 1 - s1)) := sub_of_le (by omega)
          simp only [same, Bool.false_eq_true, if_false, left, ok_bind]
          exact inductionHypothesis (by omega) (by omega)
    · simp only [gt_iff_lt, more, if_false]
      rfl

/-- On a whole string from some place on, as `str_find_aux` calls it. -/
theorem gmemfindWithin_eq (s2 : List UInt8) (inside : s1 ≤ src.length) :
    gmemfindWithin src s2 s1 (src.length - s1) s2.length = .ok (gmemfind src s1 (src.length - s1) s2) := by
  cases s2 with
  | nil => rfl
  | cons c w =>
    simp only [gmemfindWithin, gmemfind, List.length_cons, Nat.succ_ne_zero, if_false, gt_iff_lt]
    by_cases short : src.length - s1 < w.length + 1
    · rw [if_pos short, if_pos short]
      rfl
    · have others : sub (w.length + 1) 1 = .ok w.length := sub_of_le (by omega)
      have starts : sub (src.length - s1) w.length = .ok (src.length - s1 - w.length) := sub_of_le (by omega)
      simp only [short, if_false, others, starts, ok_bind]
      exact memfindWithinLoop_eq _ (Nat.le_refl _) (by omega)

/-- On any two strings `gmemfind` makes no access outside of them, and it finds the first occurrence of `s2` in
`s1`, or none if there is none. -/
theorem gmemfind_inBounds (s1 s2 : List UInt8) : ∃ r, gmemfindWithin s1 s2 0 s1.length s2.length = .ok r ∧
    match r with
    | some i => OccursAt s1 s2 i ∧ ∀ j < i, ¬ OccursAt s1 s2 j
    | none => ∀ i, ¬ OccursAt s1 s2 i := by
  have whole := @gmemfindWithin_eq s1 0 s2 (Nat.zero_le _)
  have first := @gmemfind_first s1 0 s2 (Nat.zero_le _)
  rw [Nat.sub_zero] at whole first
  refine ⟨_, whole, ?_⟩
  cases found : gmemfind s1 0 s1.length s2 with
  | some i =>
    rw [found] at first
    obtain ⟨-, -, occurs, least⟩ := first
    exact ⟨occurs, fun j before => least j (Nat.zero_le j) before⟩
  | none =>
    rw [found] at first
    intro i occurs
    by_cases inside : i ≤ s1.length
    · exact first i (Nat.zero_le i) inside occurs
    · -- behind the end only the empty string is left, which occurs at the beginning as well
      have fits := occurs.fits
      obtain rfl : s2 = [] := List.length_eq_zero_iff.mp (by omega)
      exact first 0 (Nat.le_refl 0) (Nat.zero_le _) occursAt_nil

end Gafq.StrLib
