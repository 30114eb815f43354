import Gafq.StrLib.Search
import Gafq.Base.Outcome

/-! # Plain searches

`string.find` does a plain search when the pattern has none of the characters in `SPECIALS`.  The list
leaves out `)`, which `match` does not take for itself; a match of such a pattern raises an error as soon
as the characters before the first `)` are found.
-/

namespace Gafq.StrLib

open Base

variable {src : List UInt8} {pat : CString} {s p init : Nat}

/-! ## The first of several positions -/

/-- `r` is the first position from `lo` up to `hi` where `P` holds. -/
def FirstIn (P : Nat → Prop) (lo hi : Nat) : Option Nat → Prop
  | none => ∀ i, lo ≤ i → i ≤ hi → ¬ P i
  | some i => lo ≤ i ∧ i ≤ hi ∧ P i ∧ ∀ j, lo ≤ j → j < i → ¬ P j

theorem FirstIn.unique {P : Nat → Prop} {lo hi : Nat} {r r' : Option Nat} (first : FirstIn P lo hi r)
    (second : FirstIn P lo hi r') : r = r' := by
  cases r with
  | none =>
    cases r' with
    | none => rfl
    | some i => exact absurd second.2.2.1 (first i second.1 second.2.1)
  | some i =>
    cases r' with
    | none => exact absurd first.2.2.1 (second i first.1 first.2.1)
    | some j =>
      have notBefore : ¬ i < j := fun before => second.2.2.2 i first.1 before first.2.2.1
      have notAfter : ¬ j < i := fun after => first.2.2.2 j second.1 after second.2.2.1
      rw [show i = j by omega]

/-- The characters of `w` are those of the subject from `s` on. -/
def OccursAt (src w : List UInt8) (s : Nat) : Prop := w <+: src.drop s

instance (w : List UInt8) : Decidable (OccursAt src w s) := by
  unfold OccursAt
  infer_instance

theorem occursAt_nil : OccursAt src [] s := List.nil_prefix

theorem OccursAt.fits {w : List UInt8} (occurs : OccursAt src w s) : w.length ≤ src.length - s := by
  simpa using occurs.length_le

theorem occursAt_cons {c : UInt8} {w : List UInt8} (before : s < src.length) :
    OccursAt src (c :: w) s ↔ src.getD s 0 = c ∧ OccursAt src w (s + 1) := by
  unfold OccursAt
  rw [List.drop_eq_getElem_cons before, List.cons_prefix_cons]
  simp [before, eq_comm]

theorem memcmpEq_iff {w : List UInt8} : memcmpEq src s w = true ↔ OccursAt src w s := by
  rw [memcmpEq, OccursAt, List.prefix_iff_eq_take, beq_iff_eq]
  exact eq_comm

/-! ## `gmemfind` -/

theorem memchr_first (c : UInt8) : ∀ (n s : Nat),
    match memchr src c s n with
    | none => ∀ i, s ≤ i → i < s + n → src.getD i 0 ≠ c
    | some i => s ≤ i ∧ i < s + n ∧ src.getD i 0 = c ∧ ∀ j, s ≤ j → j < i → src.getD j 0 ≠ c
  | 0, s => fun i after before => by omega
  | n + 1, s => by
    have rest := memchr_first c n (s + 1)
    unfold memchr
    by_cases here : src.getD s 0 = c
    · simp only [here, if_true]
      exact ⟨Nat.le_refl _, by omega, trivial, fun j after before => by omega⟩
    · have after : ∀ i, s ≤ i → i ≠ s → s + 1 ≤ i := fun i le ne => by omega
      rw [if_neg here]
      cases found : memchr src c (s + 1) n with
      | none =>
        simp only [found] at rest
        intro i le lt
        by_cases isFirst : i = s
        · exact isFirst ▸ here
        · exact rest i (after i le isFirst) (by omega)
      | some i =>
        simp only [found] at rest
        obtain ⟨le, lt, isChar, least⟩ := rest
        refine ⟨by omega, by omega, isChar, fun j le' before => ?_⟩
        by_cases isFirst : j = s
        · exact isFirst ▸ here
        · exact least j (after j le' isFirst) before

theorem memfindLoop_first (c : UInt8) (w : List UInt8) (fuel : Nat) : ∀ {s1 l1 : Nat}, l1 ≤ fuel →
    s1 + l1 + w.length = src.length → FirstIn (OccursAt src (c :: w)) s1 src.length (memfindLoop src c w fuel s1 l1) := by
  -- the string does not fit after the last of the `l1` positions
  have tooLate : ∀ {s1 l1 i : Nat}, s1 + l1 + w.length = src.length → s1 + l1 ≤ i → ¬ OccursAt src (c :: w) i := by
    intro s1 l1 i total late occurs
    have fits := occurs.fits
    simp only [List.length_cons] at fits
    omega
  induction fuel with
  | zero =>
    intro s1 l1 enough total i after _
    exact tooLate total (by omega)
  | succ fuel inductionHypothesis =>
    intro s1 l1 enough total
    unfold memfindLoop
    by_cases more : 0 < l1
    · rw [if_pos more]
      have first := @memchr_first src c l1 s1
      cases found : memchr src c s1 l1 with
      | none =>
        simp only [found] at first ⊢
        intro i after _ occurs
        by_cases late : s1 + l1 ≤ i
        · exact tooLate total late occurs
        · exact first i after (by omega) ((occursAt_cons (by omega)).1 occurs).1
      | some i =>
        simp only [found] at first ⊢
        obtain ⟨after, before, isChar, least⟩ := first
        have earlier : ∀ j, s1 ≤ j → j < i → ¬ OccursAt src (c :: w) j := fun j le lt occurs =>
          least j le lt ((occursAt_cons (by omega)).1 occurs).1
        by_cases rest : memcmpEq src (i + 1) w = true
        · rw [if_pos rest]
          have occurs : OccursAt src (c :: w) i := (occursAt_cons (by omega)).2 ⟨isChar, memcmpEq_iff.1 rest⟩
          exact ⟨by omega, by omega, occurs, earlier⟩
        · rw [if_neg rest]
          have notHere : ¬ OccursAt src (c :: w) i := fun occurs =>
            rest (memcmpEq_iff.2 ((occursAt_cons (by omega)).1 occurs).2)
          have next := inductionHypothesis (by omega : l1 - (i + 1 - s1) ≤ fuel)
            (by omega : i + 1 + (l1 - (i + 1 - s1)) + w.length = src.length)
          have upTo : ∀ j, s1 ≤ j → j < i + 1 → ¬ OccursAt src (c :: w) j := fun j le lt => by
            by_cases same : j = i
            · exact same ▸ notHere
            · exact earlier j le (by omega)
          cases result : memfindLoop src c w fuel (i + 1) (l1 - (i + 1 - s1)) with
          | none =>
            simp only [result, FirstIn] at next ⊢
            intro j le le'
            by_cases later : i + 1 ≤ j
            · exact next j later le'
            · exact upTo j le (by omega)
          | some k =>
            simp only [result, FirstIn] at next ⊢
            obtain ⟨le, le', occurs, least⟩ := next
            refine ⟨by omega, le', occurs, fun j after' before' => ?_⟩
            by_cases later : i + 1 ≤ j
            · exact least j later before'
            · exact upTo j after' (by omega)
    · rw [if_neg more]
      intro i after _
      exact tooLate total (by omega)

/-- `gmemfind` finds the first occurrence. -/
theorem gmemfind_first (w : List UInt8) (inside : s ≤ src.length) :
    FirstIn (OccursAt src w) s src.length (gmemfind src s (src.length - s) w) := by
  unfold gmemfind
  cases w with
  | nil => exact ⟨Nat.le_refl _, inside, occursAt_nil, fun j after before => by omega⟩
  | cons c w =>
    simp only
    by_cases short : src.length - s < w.length + 1
    · rw [if_pos short]
      intro i after _ occurs
      have fits := occurs.fits
      simp only [List.length_cons] at fits
      omega
    · rw [if_neg short]
      exact memfindLoop_first c w _ (Nat.le_refl _) (by omega)

/-! ## Matching a pattern without special characters -/

/-- The character at `p`; at the end it is the NUL. -/
theorem readAt_eq {l : List UInt8} (inside : p ≤ l.length) : readAt l p = .ok ((l.drop p).headD 0) := by
  unfold readAt
  by_cases before : p < l.length
  · rw [if_pos before, List.drop_eq_getElem_cons before]
    simp [before]
  · rw [if_neg before, if_pos (by omega), List.drop_of_length_le (by omega)]
    rfl

theorem lt_of_drop {l rest : List UInt8} {c : UInt8} (isRest : l.drop p = c :: rest) : p < l.length := by
  have length := congrArg List.length isRest
  simp only [List.length_drop, List.length_cons] at length
  omega

theorem readAt_drop {l rest : List UInt8} {c : UInt8} (isRest : l.drop p = c :: rest) : readAt l p = .ok c := by
  rw [readAt_eq (Nat.le_of_lt (lt_of_drop isRest)), isRest]
  rfl

theorem drop_succ {l rest : List UInt8} {c : UInt8} (isRest : l.drop p = c :: rest) : l.drop (p + 1) = rest := by
  rw [← List.tail_drop, isRest]
  rfl

/-- A character that stands for itself wherever it is. -/
def Ordinary (c : UInt8) : Prop := c ∉ specials ∧ c ≠ 0

theorem Ordinary.ne {c : UInt8} (ordinary : Ordinary c) {d : Char} (isSpecial : byte d ∈ specials) : c ≠ byte d :=
  fun same => ordinary.1 (same ▸ isSpecial)

theorem headD_ne {rest : List UInt8} (ordinary : ∀ c ∈ rest, Ordinary c) {d : Char} (isSpecial : byte d ∈ specials)
    (notNul : byte d ≠ 0) : rest.headD 0 ≠ byte d := by
  cases rest with
  | nil => exact notNul.symm
  | cons c rest => exact (ordinary c List.mem_cons_self).ne isSpecial

/-- The characters before the first `)`. -/
def beforeClose (w : List UInt8) : List UInt8 := w.takeWhile (· != byte ')')

theorem beforeClose_cons {c : UInt8} {w : List UInt8} (notClose : c ≠ byte ')') : beforeClose (c :: w) = c :: beforeClose w := by
  simp [beforeClose, notClose]

theorem beforeClose_eq {w : List UInt8} (noClose : byte ')' ∉ w) : beforeClose w = w := by
  rw [beforeClose, List.takeWhile_eq_self_iff]
  intro c member
  exact bne_iff_ne.2 fun isClose => noClose (isClose ▸ member)

theorem prefix_beforeClose (w : List UInt8) : beforeClose w <+: w := List.takeWhile_prefix _

/-- What `match` does on the rest of a pattern. -/
def plainResult (src rest : List UInt8) (s : Nat) : MatchM MatchResult :=
  if OccursAt src (beforeClose rest) s then
    if byte ')' ∈ rest then .error (.pattern "invalid pattern capture") else .ok (some (s + rest.length), ⟨[]⟩)
  else .ok (none, ⟨[]⟩)

theorem singleAt_plain {c : UInt8} {rest : List UInt8} (isRest : pat.chars.drop p = c :: rest) (ordinary : Ordinary c)
    (ep : Nat) : singleAt src pat s p ep = .ok (decide (OccursAt src [c] s)) := by
  have other : ∀ {d : Char}, byte d ∈ specials → c ≠ byte d := ordinary.ne
  unfold singleAt
  by_cases inside : s < src.length
  · rw [if_pos inside, readAt_eq (Nat.le_of_lt inside), List.drop_eq_getElem_cons inside]
    simp only [ok_bind, singlematch, readAt_drop isRest]
    rw [if_neg (other (d := '.') (by decide)), if_neg (other (d := '%') (by decide)), if_neg (other (d := '[') (by decide))]
    simp [occursAt_cons inside, occursAt_nil, inside, eq_comm, Bool.beq_eq_decide_eq]
  · have late : ¬ OccursAt src [c] s := fun occurs => by
      have fits := occurs.fits
      simp only [List.length_singleton] at fits
      omega
    simp [inside, late]

theorem matchDefault_plain {c : UInt8} {rest : List UInt8} {rec : MatchState → Nat → Nat → MatchM MatchResult}
    (isRest : pat.chars.drop p = c :: rest) (ordinary : ∀ d ∈ c :: rest, Ordinary d) :
    matchDefault src pat rec ⟨[]⟩ s p =
      if OccursAt src [c] s then rec ⟨[]⟩ (s + 1) (p + 1) else .ok (none, ⟨[]⟩) := by
  have self := ordinary c List.mem_cons_self
  have others : ∀ d ∈ rest, Ordinary d := fun d member => ordinary d (List.mem_cons_of_mem _ member)
  have isEnd : classend pat p = .ok (p + 1) := by
    simp only [classend, readAt_drop isRest, ok_bind]
    rw [if_neg (self.ne (d := '%') (by decide)), if_neg (self.ne (d := '[') (by decide))]
    rfl
  have suffix := readAt_eq (l := pat.chars) (p := p + 1) (lt_of_drop isRest)
  rw [drop_succ isRest] at suffix
  unfold matchDefault
  simp only [isEnd, singleAt_plain isRest self, suffix, ok_bind]
  -- no suffix follows
  rw [if_neg (headD_ne others (d := '?') (by decide) (by decide)), if_neg (headD_ne others (d := '*') (by decide) (by decide)),
    if_neg (headD_ne others (d := '+') (by decide) (by decide)), if_neg (headD_ne others (d := '-') (by decide) (by decide))]
  simp

theorem matchLoop_plain (fuel : Nat) : ∀ {s p : Nat}, pat.chars.length - p < fuel → p ≤ pat.chars.length → s ≤ src.length →
    (∀ d ∈ pat.chars.drop p, Ordinary d) → matchLoop src pat fuel ⟨[]⟩ s p = plainResult src (pat.chars.drop p) s := by
  induction fuel with
  | zero => intro s p enough; omega
  | succ fuel inductionHypothesis =>
    intro s p enough inside within ordinary
    unfold matchLoop matchStep
    cases isRest : pat.chars.drop p with
    | nil =>
      rw [readAt_eq inside, isRest]
      simp [plainResult, beforeClose, occursAt_nil, byte]
    | cons c rest =>
      rw [isRest] at ordinary
      have self := ordinary c List.mem_cons_self
      have next := drop_succ isRest
      have length := lt_of_drop isRest
      simp only [readAt_drop isRest, ok_bind]
      rw [if_neg (self.ne (d := '(') (by decide))]
      by_cases isClose : c = byte ')'
      · -- no capture is open
        subst isClose
        simp [endCapture, captureToClose, captureToCloseLoop, MatchState.level, plainResult, beforeClose, occursAt_nil]
      · rw [if_neg isClose, if_neg (self.ne (d := '%') (by decide)), if_neg self.2, if_neg (self.ne (d := '$') (by decide)),
          matchDefault_plain isRest ordinary]
        unfold plainResult
        rw [beforeClose_cons isClose]
        by_cases here : OccursAt src [c] s
        · have before : s < src.length := by
            have fits := here.fits
            simp only [List.length_singleton] at fits
            omega
          rw [if_pos here, inductionHypothesis (by omega) length before (by
            rw [next]
            exact fun d member => ordinary d (List.mem_cons_of_mem _ member)), next]
          have first := ((occursAt_cons before).1 here).1
          unfold plainResult
          simp only [occursAt_cons before, first, true_and, List.mem_cons, Ne.symm isClose, false_or, List.length_cons]
          rw [show s + 1 + rest.length = s + (rest.length + 1) by omega]
        · have notHere : ¬ OccursAt src (c :: beforeClose rest) s := fun occurs => by
            have before : s < src.length := by
              have fits := occurs.fits
              simp only [List.length_cons] at fits
              omega
            exact here ((occursAt_cons before).2 ⟨((occursAt_cons before).1 occurs).1, occursAt_nil⟩)
          rw [if_neg here, if_neg notHere]

theorem doMatch_plain {p : CString} (ordinary : ∀ d ∈ p.chars, Ordinary d) (within : s ≤ src.length) :
    doMatch src p ⟨[]⟩ s 0 = plainResult src p.chars s := by
  unfold doMatch
  rw [matchLoop_plain _ (by omega) (Nat.zero_le _) within (by simpa using ordinary), List.drop_zero]

/-! ## The two searches -/

/-- What the loop of `str_find_aux` returns when the characters before `)` are found at `r`. -/
def searchResult (p : List UInt8) : Option Nat → MatchM (List Pushed)
  | none => .ok [.nil]
  | some i =>
    if byte ')' ∈ p then .error (.pattern "invalid pattern capture")
    else .ok [.integer (i + 1), .integer ((i + p.length : Nat) : Int)]

theorem searchAt_plain {p : CString} (ordinary : ∀ d ∈ p.chars, Ordinary d) (within : s ≤ src.length) :
    searchAt src true false p s =
      if OccursAt src (beforeClose p.chars) s then some <$> searchResult p.chars (some s) else .ok none := by
  unfold searchAt
  rw [if_neg Bool.false_ne_true, doMatch_plain ordinary within, plainResult, searchResult]
  by_cases here : OccursAt src (beforeClose p.chars) s
  · rw [if_pos here, if_pos here]
    by_cases isClose : byte ')' ∈ p.chars
    · rw [if_pos isClose, if_pos isClose, error_bind]
      rfl
    · rw [if_neg isClose, if_neg isClose, ok_bind]
      rfl
  · rw [if_neg here, if_neg here, ok_bind]
    rfl

/-- The loop of `str_find_aux` finds the first occurrence of the characters before `)`. -/
theorem searchLoop_plain {p : CString} (ordinary : ∀ d ∈ p.chars, Ordinary d) {r : Option Nat} : ∀ {left s : Nat},
    s + left = src.length → FirstIn (OccursAt src (beforeClose p.chars)) s src.length r →
    searchLoop src true false p left s = searchResult p.chars r := by
  intro left
  induction left with
  | zero =>
    intro s total first
    unfold searchLoop
    rw [searchAt_plain ordinary (by omega)]
    cases r with
    | none =>
      rw [if_neg (first s (Nat.le_refl _) (by omega))]
      rfl
    | some i =>
      obtain ⟨after, before, occurs, -⟩ := first
      obtain rfl : i = s := by omega
      rw [if_pos occurs]
      cases searchResult p.chars (some i) <;> rfl
  | succ left inductionHypothesis =>
    intro s total first
    unfold searchLoop
    rw [searchAt_plain ordinary (by omega)]
    by_cases here : OccursAt src (beforeClose p.chars) s
    · have isFirst : FirstIn (OccursAt src (beforeClose p.chars)) s src.length (some s) :=
        ⟨Nat.le_refl _, by omega, here, fun j after before => by omega⟩
      rw [if_pos here, first.unique isFirst]
      cases searchResult p.chars (some s) <;> rfl
    · rw [if_neg here, ok_bind]
      simp only [Bool.false_eq_true, if_false]
      apply inductionHypothesis (by omega)
      cases r with
      | none => exact fun i after before => first i (by omega) before
      | some i =>
        obtain ⟨after, before, occurs, least⟩ := first
        have later : i ≠ s := fun same => here (same ▸ occurs)
        exact ⟨by omega, before, occurs, fun j after' before' => least j (by omega) before'⟩

theorem ordinary_of_noSpecials {p : List UInt8} (noNul : 0 ∉ p) (plain : noSpecials (.ofBytes p) = true) :
    (CString.ofBytes p).chars = p ∧ ∀ d ∈ p, Ordinary d := by
  have chars : (CString.ofBytes p).chars = p := by
    rw [CString.ofBytes, List.takeWhile_eq_self_iff]
    exact fun c member => bne_iff_ne.2 fun isNul => noNul (isNul ▸ member)
  refine ⟨chars, fun d member => ⟨?_, fun isNul => noNul (isNul ▸ member)⟩⟩
  unfold noSpecials at plain
  rw [chars, List.all_eq_true] at plain
  simpa using plain d member

theorem initOffset_le (pos : Int) : initOffset src pos ≤ src.length := by
  unfold initOffset
  simp only
  split
  · exact Nat.zero_le _
  · split
    · exact Nat.le_refl _
    · next inside => exact Nat.not_lt.1 inside

/-- The plain search that `string.find` does has the result of the other search exactly if there is no
`)` in the pattern, or the characters before the first `)` are not found. -/
theorem strFindAux_plain_iff {p : List UInt8} (pos : Int) (noNul : 0 ∉ p) (plain : noSpecials (.ofBytes p) = true) :
    strFindAux src true false p pos = matchSearch src true (.ofBytes p) (initOffset src pos) ↔
      (byte ')' ∈ p → ∀ s, initOffset src pos ≤ s → s ≤ src.length → ¬ OccursAt src (beforeClose p) s) := by
  obtain ⟨chars, ordinary⟩ := ordinary_of_noSpecials noNul plain
  have inside := @initOffset_le src pos
  have notAnchored : (p.head? == some (byte '^')) = false := by
    cases p with
    | nil => rfl
    | cons c p => simpa using (ordinary c List.mem_cons_self).ne (d := '^') (by decide)
  have search : ∀ {r}, FirstIn (OccursAt src (beforeClose p)) (initOffset src pos) src.length r →
      matchSearch src true (.ofBytes p) (initOffset src pos) = searchResult p r := fun {r} first => by
    have loop := searchLoop_plain (p := .ofBytes p) (by rwa [chars])
      (by omega : initOffset src pos + (src.length - initOffset src pos) = src.length) (by rwa [chars])
    rw [matchSearch, chars, notAnchored, loop, chars]
  have found := gmemfind_first p inside
  have chosen : strFindAux src true false p pos = .ok (plainSearch src p (initOffset src pos)) := by
    simp [strFindAux, plain]
  rw [chosen, plainSearch]
  generalize gmemfind src (initOffset src pos) (src.length - initOffset src pos) p = r at found ⊢
  by_cases isClose : byte ')' ∈ p
  · have first := @gmemfind_first src _ (beforeClose p) inside
    rw [search first]
    cases isFirst : gmemfind src (initOffset src pos) (src.length - initOffset src pos) (beforeClose p) with
    | none =>
      rw [isFirst] at first
      -- the characters before `)` are found wherever the pattern is
      have absent : r = none := by
        apply found.unique
        exact fun i after before occurs => first i after before ((prefix_beforeClose p).trans occurs)
      subst absent
      exact ⟨fun _ _ => first, fun _ => rfl⟩
    | some i =>
      rw [isFirst] at first
      obtain ⟨after, before, occurs, -⟩ := first
      rw [searchResult, if_pos isClose]
      exact ⟨nofun, fun never => absurd occurs (never isClose i after before)⟩
  · rw [search (r := r) (by rwa [beforeClose_eq isClose])]
    constructor
    · exact fun _ isClose' => absurd isClose' isClose
    · intro _
      cases r with
      | none => rfl
      | some i => simp [searchResult, isClose]

/-- A single `)` is found in `a)` at position 2 by the plain search; the other search raises an error. -/
theorem strFindAux_plain_close : ¬ ∀ (src p : List UInt8) (pos : Int), 0 ∉ p → noSpecials (.ofBytes p) = true →
    strFindAux src true false p pos = matchSearch src true (.ofBytes p) (initOffset src pos) := by
  intro always
  have same := always [byte 'a', byte ')'] [byte ')'] 1 (by decide) (by decide)
  exact absurd same (by decide)

theorem strFindAux_plain_word : strFindAux [byte 'a', byte 'b'] true false [byte 'b'] 1 =
    matchSearch [byte 'a', byte 'b'] true (.ofBytes [byte 'b']) (initOffset [byte 'a', byte 'b'] 1) :=
  (strFindAux_plain_iff 1 (by decide) (by decide)).2 fun isClose => absurd isClose (by decide)

end Gafq.StrLib
