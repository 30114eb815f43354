import Gafq.StrLib.Match
import Gafq.Base.Outcome

/-! # The matcher stays inside its strings

Every function of the matcher is given an offset that is not after the NUL of the pattern and
passes on such offsets only.  The part of the pattern that is left gets shorter with every call of
`match`, so the calls end.
-/

namespace Gafq.StrLib

open Base

variable {src : List UInt8} {pat : CString} {ms ms' : MatchState} {s p ep : Nat} {c : UInt8}

/-- The computation does not read outside of the strings, and it ends. -/
abbrev Safely {α : Type} (m : MatchM α) (post : α → Prop) : Prop := Returns (fun e => ∃ msg, e = MatchError.pattern msg) m post

/-! ## Reading -/

theorem readAt_safe {l : List UInt8} (inside : p ≤ l.length) : Safely (readAt l p) fun c => c ≠ 0 → p < l.length := by
  unfold readAt
  by_cases before : p < l.length
  · rw [if_pos before]
    exact fun _ => before
  · rw [if_neg before, if_pos (by omega)]
    exact fun notNul => absurd rfl notNul

theorem readAt_subject (inside : s ≤ src.length) : Safely (readAt src s) fun _ => True :=
  (readAt_safe inside).weaken fun _ _ => trivial

theorem readBlock_safe {len : Nat} (inside : p + len ≤ src.length) : Safely (readBlock src p len) fun _ => True := by
  simp [readBlock, inside, Returns]

/-! ## Classes -/

theorem classendLoop_safe (fuel : Nat) : ∀ {p : Nat}, p ≤ pat.chars.length → pat.chars.length - p < fuel →
    Safely (classendLoop pat fuel p) fun ep => p < ep ∧ ep ≤ pat.chars.length := by
  induction fuel with
  | zero => intro p _ enough; omega
  | succ fuel inductionHypothesis =>
    intro p inside enough
    unfold classendLoop
    apply (readAt_safe inside).bind
    intro c notLast
    apply Returns.ite
    · exact fun _ => .fail ⟨_, rfl⟩
    · intro notNul
      have before := notLast notNul
      apply (readAt_safe (by omega : p + 1 ≤ pat.chars.length)).bind
      intro next notLast
      -- the escaped character is not the NUL
      obtain ⟨q, isNext, after, inside'⟩ : ∃ q, (if c = byte '%' ∧ next ≠ 0 then p + 2 else p + 1) = q ∧ p < q ∧
          q ≤ pat.chars.length := by
        split
        · next escape => exact ⟨p + 2, rfl, by omega, notLast escape.2⟩
        · exact ⟨p + 1, rfl, by omega, by omega⟩
      simp only [isNext]
      apply (readAt_safe inside').bind
      intro x notLast
      apply Returns.ite
      · intro isEnd
        have before := notLast (by rw [isEnd]; decide)
        exact .pure ⟨by omega, before⟩
      · intro _
        apply (inductionHypothesis inside' (by omega)).weaken
        intro ep bounds
        omega

theorem classend_safe (inside : p < pat.chars.length) :
    Safely (classend pat p) fun ep => p < ep ∧ ep ≤ pat.chars.length := by
  unfold classend
  apply (readAt_safe (by omega : p ≤ pat.chars.length)).bind
  intro c _
  apply Returns.ite
  · intro _
    apply (readAt_safe (by omega : p + 1 ≤ pat.chars.length)).bind
    intro d notLast
    apply Returns.ite
    · exact fun _ => .fail ⟨_, rfl⟩
    · intro notNul
      have before := notLast notNul
      exact .pure ⟨by omega, by omega⟩
  · intro _
    apply Returns.ite
    · intro _
      apply (readAt_safe (by omega : p + 1 ≤ pat.chars.length)).bind
      intro d notLast
      have inside' : (if d = byte '^' then p + 2 else p + 1) ≤ pat.chars.length := by
        split
        · next isCaret => exact notLast (by rw [isCaret]; decide)
        · omega
      apply (classendLoop_safe _ inside' (by omega)).weaken
      intro ep bounds
      split at bounds <;> omega
    · exact fun _ => .pure ⟨by omega, by omega⟩

theorem bracketLoop_safe {ec : Nat} (inside : ec ≤ pat.chars.length) (fuel : Nat) : ∀ {p : Nat},
    Safely (bracketLoop pat c ec fuel p) fun _ => True := by
  induction fuel with
  | zero => exact fun {_} => trivial
  | succ fuel inductionHypothesis =>
    intro p
    unfold bracketLoop
    apply Returns.ite
    · intro before
      apply (readAt_subject (by omega : p ≤ pat.chars.length)).bind
      intro x _
      apply Returns.ite
      · intro _
        apply (readAt_subject (by omega : p + 1 ≤ pat.chars.length)).bind
        exact fun cl _ => Returns.ite (fun _ => .pure trivial) fun _ => inductionHypothesis
      · intro _
        apply (readAt_subject (by omega : p + 1 ≤ pat.chars.length)).bind
        intro next _
        apply Returns.ite
        · intro range
          apply (readAt_subject (by omega : p + 2 ≤ pat.chars.length)).bind
          exact fun hi _ => Returns.ite (fun _ => .pure trivial) fun _ => inductionHypothesis
        · intro _
          exact Returns.ite (fun _ => .pure trivial) fun _ => inductionHypothesis
    · exact fun _ => .pure trivial

theorem matchbracketclass_safe (inside : p < pat.chars.length) (inside' : ep ≤ pat.chars.length) :
    Safely (matchbracketclass pat c p (ep - 1)) fun _ => True := by
  have loop : ∀ {fuel q : Nat}, Safely (bracketLoop pat c (ep - 1) fuel q) fun _ => True :=
    bracketLoop_safe (by omega) _
  unfold matchbracketclass
  apply (readAt_subject (by omega : p + 1 ≤ pat.chars.length)).bind
  intro d _
  apply Returns.ite
  · exact fun _ => loop.bind fun _ _ => .pure trivial
  · exact fun _ => loop

theorem singlematch_safe (inside : p < pat.chars.length) (inside' : ep ≤ pat.chars.length) :
    Safely (singlematch pat c p ep) fun _ => True := by
  unfold singlematch
  apply (readAt_subject (by omega : p ≤ pat.chars.length)).bind
  intro x _
  apply Returns.ite
  · exact fun _ => .pure trivial
  · intro _
    apply Returns.ite
    · intro _
      apply (readAt_subject (by omega : p + 1 ≤ pat.chars.length)).bind
      exact fun cl _ => .pure trivial
    · intro _
      exact Returns.ite (fun _ => matchbracketclass_safe inside inside') fun _ => .pure trivial

theorem singleAt_safe (inside : p < pat.chars.length) (inside' : ep ≤ pat.chars.length) :
    Safely (singleAt src pat s p ep) fun m => m = true → s < src.length := by
  unfold singleAt
  apply Returns.ite
  · intro before
    apply (readAt_subject (by omega : s ≤ src.length)).bind
    exact fun c _ => (singlematch_safe inside inside').weaken fun _ _ _ => before
  · exact fun _ => .pure nofun

/-! ## Captures -/

/-- A capture is inside the subject; one that is open began at `s` or before. -/
def Capture.Inside (src : List UInt8) (s : Nat) (x : Capture) : Prop :=
  x.init ≤ src.length ∧
  match x.len with
  | .unfinished => x.init ≤ s
  | .position => True
  | .finished len => x.init + len ≤ src.length

/-- The captures with which `match` is called at `s`. -/
def MatchState.Inside (src : List UInt8) (s : Nat) (ms : MatchState) : Prop := ∀ x ∈ ms.capture, x.Inside src s

/-- What `match` returns when it is called at `s`. -/
def Matched (src : List UInt8) (ms : MatchState) (s : Nat) : MatchResult → Prop
  | (some e, ms') => s ≤ e ∧ e ≤ src.length ∧ ms'.Inside src src.length
  | (none, ms') => ms' = ms

theorem Capture.Inside.later {x : Capture} {later : Nat} (inside : x.Inside src s) (after : s ≤ later) :
    x.Inside src later := by
  obtain ⟨init, len⟩ := inside
  refine ⟨init, ?_⟩
  cases kind : x.len with
  | unfinished =>
    simp only [kind] at len
    exact Nat.le_trans len after
  | position => trivial
  | finished n => simpa only [kind] using len

theorem MatchState.Inside.later {later : Nat} (inside : ms.Inside src s) (after : s ≤ later) : ms.Inside src later :=
  fun x member => (inside x member).later after

theorem Matched.earlier {r : MatchResult} {earlier : Nat} (matched : Matched src ms s r) (before : earlier ≤ s) :
    Matched src ms earlier r := by
  obtain ⟨_ | e, ms'⟩ := r
  · exact matched
  · exact ⟨Nat.le_trans before matched.1, matched.2⟩

/-- A capture that begins at `s`. -/
theorem MatchState.Inside.opened {what : CaptureLen} (captures : ms.Inside src s) (within : s ≤ src.length)
    (opens : what = .position ∨ what = .unfinished) : MatchState.Inside src s ⟨ms.capture ++ [⟨s, what⟩]⟩ := by
  intro x member
  obtain older | rfl : x ∈ ms.capture ∨ x = ⟨s, what⟩ := by simpa using member
  · exact captures x older
  · obtain rfl | rfl := opens
    · exact ⟨within, trivial⟩
    · exact ⟨within, Nat.le_refl _⟩

theorem get_eq {l : Nat} (below : l < ms.level) : ms.get l = ms.capture.get ⟨l, below⟩ := by
  have below : l < ms.capture.length := below
  simp [MatchState.get, below]

theorem get_mem {l : Nat} (below : l < ms.level) : ms.get l ∈ ms.capture := by
  rw [get_eq below]
  exact List.get_mem ..

/-- A capture that ends at `s`. -/
theorem MatchState.Inside.closed {l : Nat} (captures : ms.Inside src s) (within : s ≤ src.length) (below : l < ms.level)
    (isOpen : (ms.get l).len = .unfinished) : (ms.setLen l (.finished (s - (ms.get l).init))).Inside src s := by
  have begun : (ms.get l).init ≤ s := by
    have captured := (captures _ (get_mem below)).2
    simpa only [isOpen] using captured
  intro x member
  obtain older | rfl := List.mem_or_eq_of_mem_set member
  · exact captures x older
  · exact ⟨by simp only; omega, by simp only; omega⟩

/-- A capture that is closed and opened again. -/
theorem setLen_undo {l : Nat} {len : CaptureLen} (below : l < ms.level) (isOpen : (ms.get l).len = .unfinished) :
    (ms.setLen l len).setLen l .unfinished = ms := by
  have bound : l < ms.capture.length := below
  have same : (⟨(ms.get l).init, .unfinished⟩ : Capture) = ms.capture[l] := by
    rw [← isOpen, get_eq below]
    rfl
  simp [MatchState.setLen, MatchState.get, bound] at same ⊢
  simp [same]

theorem checkCapture_safe (ms : MatchState) (l : UInt8) :
    Safely (checkCapture ms l) fun i => i < ms.level ∧ (ms.get i).len ≠ .unfinished := by
  unfold checkCapture
  apply Returns.ite
  · exact fun _ => .fail ⟨_, rfl⟩
  · intro closed
    simp only [not_or, Nat.not_le] at closed
    exact .ok closed.2

theorem captureToCloseLoop_safe (ms : MatchState) : ∀ level,
    Safely (captureToCloseLoop ms level) fun l => l < level ∧ (ms.get l).len = .unfinished
  | 0 => .fail ⟨_, rfl⟩
  | level + 1 => by
    unfold captureToCloseLoop
    apply Returns.ite
    · exact fun isOpen => .ok ⟨by omega, isOpen⟩
    · exact fun _ => (captureToCloseLoop_safe ms level).weaken fun l found => ⟨by omega, found.2⟩

/-! ## Items -/

theorem balanceLoop_safe (b e : UInt8) : ∀ {left s : Nat} {cont : Int32},
    Safely (balanceLoop src b e left s cont) fun r => ∀ e ∈ r, s ≤ e ∧ e ≤ src.length
  | 0, _, _ => .pure nofun
  | left + 1, s, cont => by
    have rest : ∀ cont, Safely (balanceLoop src b e left (s + 1) cont) fun r => ∀ e ∈ r, s ≤ e ∧ e ≤ src.length :=
      fun cont => (balanceLoop_safe b e).weaken fun r bounds e isEnd => ⟨by have := bounds e isEnd; omega, (bounds e isEnd).2⟩
    unfold balanceLoop
    apply Returns.ite
    · intro before
      apply (readAt_subject (by omega : s ≤ src.length)).bind
      intro c _
      apply Returns.ite
      · intro _
        apply Returns.ite
        · intro _
          apply Returns.pure
          intro e isEnd
          cases isEnd
          omega
        · exact fun _ => rest _
      · exact fun _ => Returns.ite (fun _ => rest _) fun _ => rest _
    · exact fun _ => .pure nofun

theorem matchbalance_safe (inside : p ≤ pat.chars.length) (within : s ≤ src.length) :
    Safely (matchbalance src pat s p) fun r => ∀ e ∈ r, p + 2 ≤ pat.chars.length ∧ s ≤ e ∧ e ≤ src.length := by
  unfold matchbalance
  apply (readAt_safe inside).bind
  intro b notLast
  apply Returns.ite
  · exact fun _ => .fail ⟨_, rfl⟩
  · intro notNul
    have before := notLast notNul
    apply (readAt_safe (by omega : p + 1 ≤ pat.chars.length)).bind
    intro e notLast
    apply Returns.ite
    · exact fun _ => .fail ⟨_, rfl⟩
    · intro notNul
      have before := notLast notNul
      apply (readAt_subject within).bind
      intro c _
      apply Returns.ite
      · exact fun _ => .pure nofun
      · intro _
        apply (balanceLoop_safe b e).weaken
        intro r bounds e isEnd
        have bounds := bounds e isEnd
        omega

theorem matchCapture_safe (inside : ms.Inside src s) (within : s ≤ src.length) (l : UInt8) :
    Safely (matchCapture src ms s l) fun r => ∀ e ∈ r, s ≤ e ∧ e ≤ src.length := by
  unfold matchCapture
  apply (checkCapture_safe ms l).bind
  intro i closed
  have captured := (inside _ (get_mem closed.1)).2
  cases kind : (ms.get i).len with
  | unfinished => exact absurd kind closed.2
  | position => exact .pure nofun
  | finished len =>
    simp only [kind] at captured ⊢
    apply Returns.ite
    · intro fits
      apply (readBlock_safe captured).bind
      intro before _
      apply (readBlock_safe (by omega : s + len ≤ src.length)).bind
      intro there _
      apply Returns.pure
      intro e isEnd
      split at isEnd
      · cases isEnd
        omega
      · cases isEnd
    · exact fun _ => .pure nofun

theorem frontier_safe (inside : p < pat.chars.length) (inside' : ep ≤ pat.chars.length) (within : s ≤ src.length) :
    Safely (frontier src pat s p ep) fun _ => True := by
  unfold frontier
  have readsBefore : Safely (previousChar src s) fun _ => True := by
    unfold previousChar
    exact Returns.ite (fun _ => .pure trivial) fun _ => readAt_subject (by omega)
  apply readsBefore.bind
  intro previous _
  apply (matchbracketclass_safe inside inside').bind
  intro before _
  apply Returns.ite
  · exact fun _ => .pure trivial
  · intro _
    apply (readAt_subject within).bind
    exact fun c _ => matchbracketclass_safe inside inside'

/-! ## Matching -/

/-- The calls of `match` on the pattern after `p` are safe. -/
def SafeAfter (src : List UInt8) (pat : CString) (p : Nat) (rec : MatchState → Nat → Nat → MatchM MatchResult) : Prop :=
  ∀ {ms s q}, p < q → q ≤ pat.chars.length → s ≤ src.length → ms.Inside src s → Safely (rec ms s q) (Matched src ms s)

variable {rec : MatchState → Nat → Nat → MatchM MatchResult}

theorem countMax_safe (inside : p < pat.chars.length) (inside' : ep ≤ pat.chars.length) : ∀ {left i : Nat},
    s + i ≤ src.length → Safely (countMax src pat s p ep left i) fun n => s + n ≤ src.length
  | 0, _, within => .pure within
  | left + 1, i, within => by
    unfold countMax
    apply (singleAt_safe inside inside').bind
    intro m matches'
    apply Returns.ite
    · intro isMatch
      have before := matches' isMatch
      exact countMax_safe inside inside' (by omega)
    · exact fun _ => .pure within

theorem tryMax_safe (safe : SafeAfter src pat p rec) (after : p < ep + 1) (inside : ep < pat.chars.length) : ∀ {i : Nat} {ms : MatchState},
    s + i ≤ src.length → ms.Inside src s → Safely (tryMax rec s ep i ms) (Matched src ms s)
  | 0, _, within, captures => safe after inside within captures
  | i + 1, ms, within, captures => by
    unfold tryMax
    apply (safe after inside within (captures.later (by omega))).bind
    rintro ⟨_ | e, ms'⟩ matched
    · cases matched
      exact tryMax_safe safe after inside (by omega) captures
    · exact .pure (matched.earlier (by omega))

theorem maxExpand_safe (safe : SafeAfter src pat p rec) (before : p < ep) (inside : ep < pat.chars.length)
    (within : s ≤ src.length) (captures : ms.Inside src s) :
    Safely (maxExpand src pat rec ms s p ep) (Matched src ms s) := by
  unfold maxExpand
  apply (countMax_safe (by omega) (by omega) (by omega)).bind
  exact fun i fits => tryMax_safe safe (by omega) inside fits captures

theorem minLoop_safe (safe : SafeAfter src pat p rec) (before : p < ep) (inside : ep < pat.chars.length) :
    ∀ {left s : Nat} {ms : MatchState}, s ≤ src.length → ms.Inside src s →
    Safely (minLoop src pat rec p ep left ms s) (Matched src ms s)
  | 0, _, _, within, captures => safe (by omega) inside within captures
  | left + 1, s, ms, within, captures => by
    unfold minLoop
    apply (safe (by omega : p < ep + 1) inside within captures).bind
    rintro ⟨_ | e, ms'⟩ matched
    · apply (singleAt_safe (by omega) (by omega)).bind
      intro m matches'
      apply Returns.ite
      · intro isMatch
        have next := matches' isMatch
        cases matched
        apply (minLoop_safe safe before inside next (captures.later (by omega))).weaken
        exact fun r matched => matched.earlier (by omega)
      · exact fun _ => .pure matched
    · exact .pure matched

theorem startCapture_safe (safe : SafeAfter src pat p rec) {q : Nat} (after : p < q) (inside : q ≤ pat.chars.length)
    (within : s ≤ src.length) (captures : ms.Inside src s) {what : CaptureLen}
    (opens : what = .position ∨ what = .unfinished) : Safely (startCapture rec ms s q what) (Matched src ms s) := by
  unfold startCapture
  apply Returns.ite
  · exact fun _ => .fail ⟨_, rfl⟩
  · intro _
    apply (safe after inside within (captures.opened within opens)).bind
    rintro ⟨_ | e, ms'⟩ matched
    · cases matched
      exact .pure (by simp [Matched])
    · exact .pure matched

theorem endCapture_safe (safe : SafeAfter src pat p rec) {q : Nat} (after : p < q) (inside : q ≤ pat.chars.length)
    (within : s ≤ src.length) (captures : ms.Inside src s) : Safely (endCapture rec ms s q) (Matched src ms s) := by
  unfold endCapture captureToClose
  apply (captureToCloseLoop_safe ms ms.level).bind
  rintro l ⟨below, isOpen⟩
  apply (safe after inside within (captures.closed within below isOpen)).bind
  rintro ⟨_ | e, ms'⟩ matched
  · cases matched
    exact .pure (setLen_undo below isOpen)
  · exact .pure matched

theorem matchDefault_safe (safe : SafeAfter src pat p rec) (inside : p < pat.chars.length) (within : s ≤ src.length)
    (captures : ms.Inside src s) : Safely (matchDefault src pat rec ms s p) (Matched src ms s) := by
  unfold matchDefault
  apply (classend_safe inside).bind
  rintro ep ⟨after, inside'⟩
  apply (singleAt_safe inside inside').bind
  intro m matches'
  apply (readAt_safe inside').bind
  intro suffix notLast
  have skipped : ep < pat.chars.length → Safely (rec ms s (ep + 1)) (Matched src ms s) :=
    fun before => safe (by omega) before within captures
  apply Returns.ite
  · intro isSuffix
    have before := notLast (by rw [isSuffix]; decide)
    apply Returns.ite
    · intro isMatch
      have next := matches' isMatch
      apply (safe (by omega : p < ep + 1) before next (captures.later (by omega))).bind
      rintro ⟨_ | e, ms'⟩ matched
      · cases matched
        exact skipped before
      · exact .pure (matched.earlier (by omega))
    · exact fun _ => skipped before
  · intro _
    apply Returns.ite
    · intro isSuffix
      exact maxExpand_safe safe after (notLast (by rw [isSuffix]; decide)) within captures
    · intro _
      apply Returns.ite
      · intro isSuffix
        apply Returns.ite
        · intro isMatch
          have next := matches' isMatch
          apply (maxExpand_safe safe after (notLast (by rw [isSuffix]; decide)) next (captures.later (by omega))).weaken
          exact fun r matched => matched.earlier (by omega)
        · exact fun _ => .pure rfl
      · intro _
        apply Returns.ite
        · intro isSuffix
          exact minLoop_safe safe after (notLast (by rw [isSuffix]; decide)) within captures
        · intro _
          apply Returns.ite
          · intro isMatch
            have next := matches' isMatch
            exact (safe after inside' next (captures.later (by omega))).weaken fun r matched => matched.earlier (by omega)
          · exact fun _ => .pure rfl

theorem matchStep_safe (safe : SafeAfter src pat p rec) (inside : p ≤ pat.chars.length) (within : s ≤ src.length)
    (captures : ms.Inside src s) : Safely (matchStep src pat rec ms s p) (Matched src ms s) := by
  have failed : Safely (pure (none, ms) : MatchM MatchResult) (Matched src ms s) := .pure rfl
  unfold matchStep
  apply (readAt_safe inside).bind
  intro c notLast
  apply Returns.ite
  · intro isOpen
    have before := notLast (by rw [isOpen]; decide)
    apply (readAt_safe (by omega : p + 1 ≤ pat.chars.length)).bind
    intro d notLast
    apply Returns.ite
    · intro isClose
      have before := notLast (by rw [isClose]; decide)
      exact startCapture_safe safe (by omega) (by omega) within captures (.inl rfl)
    · exact fun _ => startCapture_safe safe (by omega) (by omega) within captures (.inr rfl)
  · intro _
    apply Returns.ite
    · intro isClose
      have before := notLast (by rw [isClose]; decide)
      exact endCapture_safe safe (by omega) (by omega) within captures
    · intro _
      apply Returns.ite
      · intro isEscape
        have before := notLast (by rw [isEscape]; decide)
        apply (readAt_safe (by omega : p + 1 ≤ pat.chars.length)).bind
        intro d notLast
        apply Returns.ite
        · intro isBalance
          have before := notLast (by rw [isBalance]; decide)
          apply (matchbalance_safe (by omega : p + 2 ≤ pat.chars.length) within).bind
          rintro (_ | e) bounds
          · exact failed
          · obtain ⟨fits, after, within'⟩ := bounds e rfl
            apply (safe (by omega : p < p + 4) fits within' (captures.later after)).weaken
            exact fun r matched => matched.earlier after
        · intro _
          apply Returns.ite
          · intro isFrontier
            have before := notLast (by rw [isFrontier]; decide)
            apply (readAt_safe (by omega : p + 2 ≤ pat.chars.length)).bind
            intro x notLast
            apply Returns.ite
            · exact fun _ => .fail ⟨_, rfl⟩
            · intro isSet
              have before := notLast (by rw [not_not.1 isSet]; decide)
              apply (classend_safe before).bind
              rintro ep ⟨after, inside'⟩
              apply (frontier_safe before inside' within).bind
              intro holds _
              exact Returns.ite (fun _ => safe (by omega) inside' within captures) fun _ => failed
          · intro _
            apply Returns.ite
            · intro isDigit
              have before : p + 1 < pat.chars.length := notLast fun isNul => by rw [isNul] at isDigit; simp [isdigit] at isDigit
              apply (matchCapture_safe captures within d).bind
              rintro (_ | e) bounds
              · exact failed
              · obtain ⟨after, within'⟩ := bounds e rfl
                apply (safe (by omega : p < p + 2) before within' (captures.later after)).weaken
                exact fun r matched => matched.earlier after
            · exact fun _ => matchDefault_safe safe before within captures
      · intro _
        apply Returns.ite
        · exact fun _ => .pure ⟨Nat.le_refl _, within, captures.later within⟩
        · intro notNul
          have before := notLast notNul
          apply Returns.ite
          · intro _
            apply (readAt_safe (by omega : p + 1 ≤ pat.chars.length)).bind
            intro d _
            apply Returns.ite
            · intro _
              split
              · exact .pure ⟨Nat.le_refl _, within, captures.later within⟩
              · exact failed
            · exact fun _ => matchDefault_safe safe before within captures
          · exact fun _ => matchDefault_safe safe before within captures

theorem matchLoop_safe (fuel : Nat) : ∀ {ms : MatchState} {s p : Nat}, pat.chars.length - p < fuel → p ≤ pat.chars.length →
    s ≤ src.length → ms.Inside src s → Safely (matchLoop src pat fuel ms s p) (Matched src ms s) := by
  induction fuel with
  | zero => intro ms s p enough; omega
  | succ fuel inductionHypothesis =>
    intro ms s p enough inside within captures
    exact matchStep_safe (fun after inside' => inductionHypothesis (by omega) inside') inside within captures

/-- Each call of `match` ends, with a pattern error or without one, and has read only the strings. -/
theorem doMatch_safe (inside : p ≤ pat.chars.length) (within : s ≤ src.length) (captures : ms.Inside src s) :
    Safely (doMatch src pat ms s p) (Matched src ms s) :=
  matchLoop_safe (pat.chars.length + 1) (by omega) inside within captures

/-- The state of the captures when a match begins. -/
theorem inside_start : MatchState.Inside src s ⟨[]⟩ := fun _ member => absurd member List.not_mem_nil

theorem doMatch_safe_capture : Safely (doMatch [97, 98] ⟨[40, 97, 41], by decide⟩ ⟨[]⟩ 0 0) (Matched [97, 98] ⟨[]⟩ 0) :=
  doMatch_safe (Nat.zero_le _) (Nat.zero_le _) inside_start

end Gafq.StrLib
