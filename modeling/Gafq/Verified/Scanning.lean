import Gafq.StrLib.Search
import Gafq.Verified.PatternSafety

/-! # `string.gsub` and `string.gmatch` find the same segments

Both loops go through the subject from match to match, and after an empty match they go on one
character later.  `string.gmatch` returns the captures of each match, so it raises an error where a
capture is unfinished; `string.gsub` does so only if the replacement asks for the capture.
-/

namespace Gafq.StrLib

open Base

variable {src : List UInt8} {p : CString} {s e : Nat} {ms : MatchState}

/-! ## A scan of the subject -/

/-- A match with its captures. -/
abbrev Found := Nat × Nat × MatchState

/-- A match is tried at `s`. -/
inductive Tried (src : List UInt8) (p : CString) : Nat → Prop
  | start : Tried src p 0
  | nonempty {s e : Nat} {ms : MatchState} : Tried src p s → doMatch src p ⟨[]⟩ s 0 = .ok (some e, ms) → s < e → Tried src p e
  | empty {s : Nat} {ms : MatchState} : Tried src p s → doMatch src p ⟨[]⟩ s 0 = .ok (some s, ms) → s < src.length →
      Tried src p (s + 1)
  | failed {s : Nat} {ms : MatchState} : Tried src p s → doMatch src p ⟨[]⟩ s 0 = .ok (none, ms) → s < src.length →
      Tried src p (s + 1)

/-- The matches that are found from `s` on. -/
inductive Scans (src : List UInt8) (p : CString) : Nat → List Found → Prop
  | nonempty {s e : Nat} {ms : MatchState} {rest : List Found} : doMatch src p ⟨[]⟩ s 0 = .ok (some e, ms) → s < e →
      Scans src p e rest → Scans src p s ((s, e, ms) :: rest)
  | empty {s : Nat} {ms : MatchState} {rest : List Found} : doMatch src p ⟨[]⟩ s 0 = .ok (some s, ms) → s < src.length →
      Scans src p (s + 1) rest → Scans src p s ((s, s, ms) :: rest)
  | failed {s : Nat} {ms : MatchState} {rest : List Found} : doMatch src p ⟨[]⟩ s 0 = .ok (none, ms) → s < src.length →
      Scans src p (s + 1) rest → Scans src p s rest
  | lastEmpty {ms : MatchState} : doMatch src p ⟨[]⟩ src.length 0 = .ok (some src.length, ms) →
      Scans src p src.length [(src.length, src.length, ms)]
  | lastFailed {ms : MatchState} : doMatch src p ⟨[]⟩ src.length 0 = .ok (none, ms) → Scans src p src.length []

theorem match_bounds (within : s ≤ src.length) (matched : doMatch src p ⟨[]⟩ s 0 = .ok (some e, ms)) :
    s ≤ e ∧ e ≤ src.length := by
  have safe := @doMatch_safe src p _ _ _ (Nat.zero_le _) within inside_start
  rw [matched] at safe
  exact ⟨safe.1, safe.2.1⟩

/-- A scan comes to an end if no match raises an error. -/
theorem scans_of_tried (noError : ∀ s, Tried src p s → ∃ r, doMatch src p ⟨[]⟩ s 0 = .ok r) (left : Nat) : ∀ {s : Nat},
    src.length - s ≤ left → s ≤ src.length → Tried src p s →
    ∃ found, Scans src p s found ∧ ∀ f ∈ found, Tried src p f.1 ∧ doMatch src p ⟨[]⟩ f.1 0 = .ok (some f.2.1, f.2.2) := by
  induction left with
  | zero =>
    intro s short within tried
    obtain rfl : s = src.length := by omega
    obtain ⟨⟨_ | e, ms⟩, matched⟩ := noError _ tried
    · exact ⟨[], .lastFailed matched, nofun⟩
    · have bounds := match_bounds within matched
      obtain rfl : e = src.length := by omega
      exact ⟨_, .lastEmpty matched, by simpa using ⟨tried, matched⟩⟩
  | succ left inductionHypothesis =>
    intro s short within tried
    obtain ⟨⟨_ | e, ms⟩, matched⟩ := noError s tried
    · by_cases isEnd : s < src.length
      · obtain ⟨found, scans, each⟩ := inductionHypothesis (by omega) (by omega) (tried.failed matched isEnd)
        exact ⟨found, .failed matched isEnd scans, each⟩
      · obtain rfl : s = src.length := by omega
        exact ⟨[], .lastFailed matched, nofun⟩
    · have bounds := match_bounds within matched
      have here : ∀ {found : List Found}, (∀ f ∈ found, Tried src p f.1 ∧ doMatch src p ⟨[]⟩ f.1 0 = .ok (some f.2.1, f.2.2)) →
          ∀ f ∈ (s, e, ms) :: found, Tried src p f.1 ∧ doMatch src p ⟨[]⟩ f.1 0 = .ok (some f.2.1, f.2.2) := by
        intro found each f member
        obtain rfl | member := List.mem_cons.1 member
        · exact ⟨tried, matched⟩
        · exact each f member
      by_cases nonempty : s < e
      · obtain ⟨found, scans, each⟩ := inductionHypothesis (by omega) bounds.2 (tried.nonempty matched nonempty)
        exact ⟨_, .nonempty matched nonempty scans, here each⟩
      · obtain rfl : s = e := by omega
        by_cases isEnd : s < src.length
        · obtain ⟨found, scans, each⟩ := inductionHypothesis (by omega) (by omega) (tried.empty matched isEnd)
          exact ⟨_, .empty matched isEnd scans, here each⟩
        · obtain rfl : s = src.length := by omega
          exact ⟨_, .lastEmpty matched, here nofun⟩

theorem Scans.le (scans : Scans src p s found) : s ≤ src.length := by
  induction scans with
  | nonempty _ nonempty _ inductionHypothesis => omega
  | empty _ inside | failed _ inside => omega
  | lastEmpty | lastFailed => exact Nat.le_refl _

/-! ## `string.gsub` -/

theorem skipTo_end (nonempty : s < e) : skipTo s (some e) = e := if_pos nonempty

theorem skipTo_self : skipTo s (some s) = s := if_neg (Nat.lt_irrefl s)

theorem drop_segment (inside : s < src.length) : segment src s (s + 1) ++ src.drop (s + 1) = src.drop s := by
  rw [segment, show s + 1 - s = 1 by omega, List.drop_eq_getElem_cons inside]
  rfl

theorem segment_append (order : s ≤ e) : segment src s e ++ src.drop e = src.drop s := by
  rw [segment]
  nth_rewrite 2 [← List.take_append_drop (e - s) (src.drop s)]
  rw [List.drop_drop, show s + (e - s) = e by omega]

/-- The loop of `str_gsub`, without a limit, finds the matches of the scan. -/
theorem gsubLoop_scans {maxS : Int} {found : List Found} {addValue : MatchState → Nat → Nat → MatchM (List UInt8)}
    (returns : ∀ ms s e, ∃ added, addValue ms s e = .ok added) (scans : Scans src p s found) : ∀ {left n : Nat},
    src.length - s < left → n ≤ s → (src.length : Int) < maxS →
    ∃ result, gsubLoop src p false maxS addValue left s n = .ok ⟨result, n + found.length, found⟩ ∧
      ((∀ ms s e, addValue ms s e = .ok (segment src s e)) → result = src.drop s) := by
  have below : ∀ {n s : Nat}, n ≤ s → s ≤ src.length → (src.length : Int) < maxS → (n : Int) < maxS := by omega
  induction scans with
  | @nonempty s e ms rest matched nonempty scans inductionHypothesis =>
    intro left n enough few noLimit
    obtain ⟨left, rfl⟩ : ∃ k, left = k + 1 := ⟨left - 1, by omega⟩
    have within := scans.le
    obtain ⟨added, isAdded⟩ := returns ms s e
    obtain ⟨result, ran, unchanged⟩ := inductionHypothesis (by omega : src.length - e < left) (by omega : n + 1 ≤ e) noLimit
    refine ⟨added ++ result, ?_, fun identity => ?_⟩
    · unfold gsubLoop
      rw [if_pos (below few (by omega) noLimit)]
      simp [matched, isAdded, skipTo_end nonempty, nonempty, ran, Nat.add_assoc, Nat.add_comm 1]
    · have same := isAdded.symm.trans (identity ms s e)
      cases same
      rw [unchanged identity, segment_append (by omega)]
  | @empty s ms rest matched inside scans inductionHypothesis =>
    intro left n enough few noLimit
    obtain ⟨left, rfl⟩ : ∃ k, left = k + 1 := ⟨left - 1, by omega⟩
    obtain ⟨added, isAdded⟩ := returns ms s s
    obtain ⟨result, ran, unchanged⟩ := inductionHypothesis (by omega : src.length - (s + 1) < left) (by omega : n + 1 ≤ s + 1) noLimit
    refine ⟨added ++ (segment src s (s + 1) ++ result), ?_, fun identity => ?_⟩
    · unfold gsubLoop
      rw [if_pos (below few (by omega) noLimit)]
      simp [matched, isAdded, skipTo_self, inside, ran, Nat.add_assoc, Nat.add_comm 1]
    · have same := isAdded.symm.trans (identity ms s s)
      cases same
      rw [unchanged identity, drop_segment inside, segment_append (Nat.le_refl s)]
  | @failed s ms rest matched inside scans inductionHypothesis =>
    intro left n enough few noLimit
    obtain ⟨left, rfl⟩ : ∃ k, left = k + 1 := ⟨left - 1, by omega⟩
    obtain ⟨result, ran, unchanged⟩ := inductionHypothesis (by omega : src.length - (s + 1) < left) (by omega : n ≤ s + 1) noLimit
    refine ⟨segment src s (s + 1) ++ result, ?_, fun identity => ?_⟩
    · unfold gsubLoop
      rw [if_pos (below few (by omega) noLimit)]
      simp [matched, skipTo, inside, ran]
    · rw [unchanged identity, drop_segment inside]
  | @lastEmpty ms matched =>
    intro left n enough few noLimit
    obtain ⟨left, rfl⟩ : ∃ k, left = k + 1 := ⟨left - 1, by omega⟩
    obtain ⟨added, isAdded⟩ := returns ms src.length src.length
    refine ⟨added ++ src.drop src.length, ?_, fun identity => ?_⟩
    · unfold gsubLoop
      rw [if_pos (below few (Nat.le_refl _) noLimit)]
      simp [matched, isAdded, skipTo_self]
    · have same := isAdded.symm.trans (identity ms src.length src.length)
      cases same
      rw [segment_append (Nat.le_refl _)]
  | @lastFailed ms matched =>
    intro left n enough few noLimit
    obtain ⟨left, rfl⟩ : ∃ k, left = k + 1 := ⟨left - 1, by omega⟩
    refine ⟨src.drop src.length, ?_, fun _ => rfl⟩
    unfold gsubLoop
    rw [if_pos (below few (Nat.le_refl _) noLimit)]
    simp [matched, skipTo]

/-! ## `string.gmatch` -/

/-- What the iterator returns for a match. -/
def Found.segment (src : List UInt8) (f : Found) : MatchM Segment := do
  let captures ← pushCaptures src f.2.2 (some (f.1, f.2.1))
  pure ⟨f.1, f.2.1, captures⟩

/-- The iterator, called until it returns no more values, returns the matches of the scan. -/
theorem gmatchAll_scans {found : List Found} (scans : Scans src p s found) : ∀ {fuel : Nat}, src.length + 1 - s < fuel →
    gmatchAll src p fuel s = found.mapM (Found.segment src) := by
  -- a match is found at once
  have now : ∀ {s e : Nat} {ms : MatchState} {rest : List Found} {fuel : Nat}, s ≤ src.length →
      doMatch src p ⟨[]⟩ s 0 = .ok (some e, ms) →
      gmatchAll src p fuel (if e = s then e + 1 else e) = rest.mapM (Found.segment src) →
      gmatchAll src p (fuel + 1) s = ((s, e, ms) :: rest).mapM (Found.segment src) := by
    intro s e ms rest fuel within matched next
    have head : Found.segment src (s, e, ms) = pushCaptures src ms (some (s, e)) >>= fun captures => pure ⟨s, e, captures⟩ := rfl
    unfold gmatchAll gmatchAux
    rw [show src.length + 1 - s = (src.length - s) + 1 by omega, gmatchLoop, matched, List.mapM_cons, head, ok_bind]
    simp only
    generalize pushCaptures src ms (some (s, e)) = values
    cases values with
    | error e => simp
    | ok captures => simp [next]
  -- after the end
  have done : ∀ {fuel : Nat}, gmatchAll src p (fuel + 1) (src.length + 1) = .ok [] := by
    intro fuel
    simp [gmatchAll, gmatchAux, gmatchLoop]
  induction scans with
  | @nonempty s e ms rest matched nonempty scans inductionHypothesis =>
    intro fuel enough
    obtain ⟨fuel, rfl⟩ : ∃ k, fuel = k + 1 := ⟨fuel - 1, by omega⟩
    have within := scans.le
    apply now (by omega) matched
    rw [if_neg (by omega)]
    exact inductionHypothesis (by omega)
  | @empty s ms rest matched inside scans inductionHypothesis =>
    intro fuel enough
    obtain ⟨fuel, rfl⟩ : ∃ k, fuel = k + 1 := ⟨fuel - 1, by omega⟩
    apply now (by omega) matched
    rw [if_pos rfl]
    exact inductionHypothesis (by omega)
  | @failed s ms rest matched inside scans inductionHypothesis =>
    intro fuel enough
    have later := inductionHypothesis (by omega : src.length + 1 - (s + 1) < fuel)
    obtain ⟨fuel, rfl⟩ : ∃ k, fuel = k + 1 := ⟨fuel - 1, by omega⟩
    rw [← later]
    unfold gmatchAll gmatchAux
    rw [show src.length + 1 - s = (src.length + 1 - (s + 1)) + 1 by omega, gmatchLoop, matched]
    rfl
  | @lastEmpty ms matched =>
    intro fuel enough
    obtain ⟨fuel, rfl⟩ : ∃ k, fuel = k + 2 := ⟨fuel - 2, by omega⟩
    apply now (Nat.le_refl _) matched
    rw [if_pos rfl, done]
    rfl
  | @lastFailed ms matched =>
    intro fuel enough
    obtain ⟨fuel, rfl⟩ : ∃ k, fuel = k + 1 := ⟨fuel - 1, by omega⟩
    unfold gmatchAll gmatchAux
    rw [show src.length + 1 - src.length = 0 + 1 by omega, gmatchLoop, matched]
    rfl

/-! ## The two functions -/

/-- Every capture is closed. -/
def MatchState.Closed (ms : MatchState) : Prop := ∀ x ∈ ms.capture, x.len ≠ .unfinished

theorem pushCaptures_closed (closed : ms.Closed) (whole : Nat × Nat) : ∃ values, pushCaptures src ms (some whole) = .ok values := by
  have pushed : ∀ i < (if ms.level = 0 then 1 else ms.level), ∃ v, pushOnecapture src ms i whole.1 whole.2 = .ok v := by
    intro i below
    unfold pushOnecapture
    by_cases isLast : ms.level ≤ i
    · have first : i = 0 := by
        split at below <;> omega
      exact ⟨_, by rw [if_pos isLast, if_pos first]; rfl⟩
    · rw [if_neg isLast]
      have isClosed := closed _ (get_mem (Nat.not_le.1 isLast))
      cases kind : (ms.get i).len with
      | unfinished => exact absurd kind isClosed
      | position => exact ⟨_, rfl⟩
      | finished len => exact ⟨_, rfl⟩
  have all : ∀ is : List Nat, (∀ i ∈ is, i < (if ms.level = 0 then 1 else ms.level)) →
      ∃ values, is.mapM (fun i => pushOnecapture src ms i whole.1 whole.2) = .ok values := by
    intro is
    induction is with
    | nil => exact fun _ => ⟨[], rfl⟩
    | cons i is inductionHypothesis =>
      intro bounds
      obtain ⟨v, isValue⟩ := pushed i (bounds i List.mem_cons_self)
      obtain ⟨values, areValues⟩ := inductionHypothesis fun j member => bounds j (List.mem_cons_of_mem _ member)
      exact ⟨v :: values, by simp [List.mapM_cons, isValue, areValues]⟩
  obtain ⟨values, areValues⟩ := all (List.range (if ms.level = 0 then 1 else ms.level)) fun i => List.mem_range.1
  refine ⟨values, ?_⟩
  simpa [pushCaptures] using areValues

theorem mapM_segments {found : List Found} (closed : ∀ f ∈ found, f.2.2.Closed) :
    ∃ segments, found.mapM (Found.segment src) = .ok segments := by
  induction found with
  | nil => exact ⟨[], rfl⟩
  | cons f found inductionHypothesis =>
    obtain ⟨segments, areSegments⟩ := inductionHypothesis fun g member => closed g (List.mem_cons_of_mem _ member)
    obtain ⟨values, areValues⟩ := @pushCaptures_closed src _ (closed f List.mem_cons_self) (f.1, f.2.1)
    exact ⟨⟨f.1, f.2.1, values⟩ :: segments, by simp [List.mapM_cons, Found.segment, areValues, areSegments]⟩

/-- The replacement `%0`. -/
def addWhole (src : List UInt8) (ms : MatchState) (s e : Nat) : MatchM (List UInt8) := addS src ms s e [byte '%', byte '0']

theorem addWhole_eq (ms : MatchState) (s e : Nat) : addWhole src ms s e = .ok (segment src s e) := by
  simp [addWhole, addS, isdigit, byte]

/-- `MAX_INT` -/
def maxInt : Nat := 2 ^ 31 - 3

theorem castInt_eq {k : Nat} (fits : k < maxInt) : castInt (k + 1) = k + 1 := by
  unfold castInt maxInt at *
  omega

/-- All calls of the iterator of `string.gmatch`, until it returns no more values. -/
def gmatchSegments (src : List UInt8) (p : CString) : MatchM (List Segment) := gmatchAll src p (src.length + 2) 0

/-- For a pattern that does not begin with `^`, if no match raises an error or leaves a capture open, then
`string.gsub` and the iterator of `string.gmatch` find the same segments, with the same captures; and `string.gsub` with
the replacement `%0` returns its subject. -/
theorem strGsub_gmatch (short : src.length < maxInt) (noAnchor : p.chars.head? ≠ some (byte '^'))
    (noError : ∀ s, Tried src p s → ∃ r, doMatch src p ⟨[]⟩ s 0 = .ok r)
    (closed : ∀ s e ms, Tried src p s → doMatch src p ⟨[]⟩ s 0 = .ok (some e, ms) → ms.Closed) :
    ∃ found segments, gmatchSegments src p = .ok segments ∧ found.mapM (Found.segment src) = .ok segments ∧
      strGsub src p none (addWhole src) = .ok ⟨src, found.length, found⟩ ∧
      ∀ addValue : MatchState → Nat → Nat → MatchM (List UInt8), (∀ ms s e, ∃ added, addValue ms s e = .ok added) →
        ∃ result, strGsub src p none addValue = .ok ⟨result, found.length, found⟩ := by
  obtain ⟨found, scans, each⟩ := scans_of_tried noError src.length (by omega) (Nat.zero_le _) .start
  obtain ⟨segments, areSegments⟩ := @mapM_segments src found fun f member =>
    closed f.1 f.2.1 f.2.2 (each f member).1 (each f member).2
  have anchor : (p.chars.head? == some (byte '^')) = false := by simpa using noAnchor
  have substituted : ∀ {addValue : MatchState → Nat → Nat → MatchM (List UInt8)},
      (∀ ms s e, ∃ added, addValue ms s e = .ok added) →
      ∃ result, strGsub src p none addValue = .ok ⟨result, found.length, found⟩ ∧
        ((∀ ms s e, addValue ms s e = .ok (segment src s e)) → result = src.drop 0) := by
    intro addValue returns
    obtain ⟨result, ran, unchanged⟩ := @gsubLoop_scans src p 0 (src.length + 1) found addValue returns scans _ _
      (by omega : src.length - 0 < src.length + 2) (Nat.le_refl 0) (by omega)
    refine ⟨result, ?_, unchanged⟩
    rw [strGsub, anchor, Option.getD_none, castInt_eq short, ran, Nat.zero_add]
  refine ⟨found, segments, ?_, areSegments, ?_, fun addValue returns => ?_⟩
  · rw [gmatchSegments, gmatchAll_scans scans (by omega), areSegments]
  · obtain ⟨result, ran, unchanged⟩ := substituted fun ms s e => ⟨_, addWhole_eq ms s e⟩
    rw [ran, unchanged addWhole_eq, List.drop_zero]
  · obtain ⟨result, ran, -⟩ := substituted returns
    exact ⟨result, ran⟩

/-! ## Examples -/

section Examples

/-- The pattern `a*`. -/
def starred : CString := ⟨[byte 'a', byte '*'], by decide⟩

theorem starred_matches {s : Nat} (within : s ≤ 2) :
    ∃ e, doMatch [byte 'a', byte 'b'] starred ⟨[]⟩ s 0 = .ok (some e, ⟨[]⟩) := by
  obtain rfl | rfl | rfl : s = 0 ∨ s = 1 ∨ s = 2 := by omega
  · exact ⟨1, by decide⟩
  · exact ⟨1, by decide⟩
  · exact ⟨2, by decide⟩

theorem Tried.le (tried : Tried src p s) : s ≤ src.length := by
  induction tried with
  | start => exact Nat.zero_le _
  | nonempty _ matched _ inductionHypothesis => exact (match_bounds inductionHypothesis matched).2
  | empty _ _ inside | failed _ _ inside => exact inside

theorem strGsub_gmatch_starred : ∃ found segments, gmatchSegments [byte 'a', byte 'b'] starred = .ok segments ∧
    found.mapM (Found.segment [byte 'a', byte 'b']) = .ok segments ∧
    strGsub [byte 'a', byte 'b'] starred none (addWhole [byte 'a', byte 'b']) = .ok ⟨[byte 'a', byte 'b'], found.length, found⟩ ∧
    ∀ addValue : MatchState → Nat → Nat → MatchM (List UInt8), (∀ ms s e, ∃ added, addValue ms s e = .ok added) →
      ∃ result, strGsub [byte 'a', byte 'b'] starred none addValue = .ok ⟨result, found.length, found⟩ := by
  apply strGsub_gmatch
  · decide
  · decide
  · intro s tried
    obtain ⟨e, matched⟩ := starred_matches tried.le
    exact ⟨_, matched⟩
  · intro s e ms tried matched
    obtain ⟨e', matched'⟩ := starred_matches tried.le
    rw [matched'] at matched
    cases matched
    exact nofun

/-- The pattern `(a`. -/
def unclosed : CString := ⟨[byte '(', byte 'a'], by decide⟩

/-- No match of the pattern `(a` raises an error, and `string.gsub` finds one segment of `a`, but the iterator
of `string.gmatch` raises an error. -/
theorem gmatch_unclosed : ¬ ∀ (src : List UInt8) (p : CString), src.length < maxInt → p.chars.head? ≠ some (byte '^') →
    (∀ s ≤ src.length, ∃ r, doMatch src p ⟨[]⟩ s 0 = .ok r) →
    ∃ found segments, strGsub src p none (addWhole src) = .ok ⟨src, found.length, found⟩ ∧
      gmatchSegments src p = .ok segments ∧ found.mapM (Found.segment src) = .ok segments := by
  intro always
  obtain ⟨found, segments, -, returned, -⟩ := always [byte 'a'] unclosed (by decide) (by decide) fun s within => by
    obtain rfl | rfl : s = 0 ∨ s = 1 := by simp only [List.length_singleton] at within; omega
    · exact ⟨(some 1, ⟨[⟨0, .unfinished⟩]⟩), by decide⟩
    · exact ⟨(none, ⟨[]⟩), by decide⟩
  have raised : gmatchSegments [byte 'a'] unclosed = .error (.pattern "unfinished capture") := by decide
  rw [raised] at returned
  cases returned

end Examples

end Gafq.StrLib
