import Gafq.TabLib.Sort
import Gafq.Base.Rearrangement

/-! # `table.sort` sorts

The scans that split a range test its bounds only after they have passed an element, so they rest on
elements that stop them.  At first these are the end of the range and the pivot behind it, and later the
elements that have been exchanged.  When the comparison is a strict weak order, every scan stops there.
-/

namespace Gafq.TabLib

open Base (Interaction Rearranges exchange exchange_first exchange_second exchange_other)

variable {V : Type}

/-- A strict weak order on the values that satisfy `E`. -/
structure StrictWeakOrder (E : V → Prop) (less : V → V → Bool) : Prop where
  irrefl : ∀ {x}, E x → less x x = false
  trans : ∀ {x y z}, E x → E y → E z → less x y = true → less y z = true → less x z = true
  /-- to be incomparable is transitive -/
  incomparable : ∀ {x y z}, E x → E y → E z → less x y = false → less y x = false → less y z = false → less z y = false →
    less x z = false ∧ less z x = false

/-- A comparison that always answers what `less` says. -/
def answers (less : V → V → Bool) (q : Comparison V) : Option Bool := some (less q.a q.b)

variable {E : V → Prop} {less : V → V → Bool} {l u : Int} {a b : Int → V} {s : Sorting V}

namespace StrictWeakOrder

theorem asymm (order : StrictWeakOrder E less) {x y : V} (ex : E x) (ey : E y) (lt : less x y = true) : less y x = false := by
  by_contra gt
  have both := order.trans ex ey ex lt (by simpa using gt)
  rw [order.irrefl ex] at both
  cases both

/-- Not to be less is transitive. -/
theorem notLess_trans (order : StrictWeakOrder E less) {x y z : V} (ex : E x) (ey : E y) (ez : E z) (first : less x y = false)
    (second : less y z = false) : less x z = false := by
  by_contra lt
  have lt : less x z = true := by simpa using lt
  have first' : less y x = false := by
    by_contra gt
    rw [order.trans ey ex ez (by simpa using gt) lt] at second
    cases second
  have second' : less z y = false := by
    by_contra gt
    rw [order.trans ex ez ey lt (by simpa using gt)] at first
    cases first
  rw [(order.incomparable ex ey ez first first' second second').1] at lt
  cases lt

end StrictWeakOrder

/-- No value in the range is less than one before it. -/
def SortedOn (less : V → V → Bool) (a : Int → V) (l u : Int) : Prop :=
  ∀ k m, l ≤ k → k < m → m ≤ u → less (a m) (a k) = false

/-- `p` is not less than the values in the range. -/
def NotBelow (less : V → V → Bool) (p : V) (a : Int → V) (l u : Int) : Prop := ∀ k, l ≤ k → k ≤ u → less p (a k) = false

/-- The values in the range are not less than `p`. -/
def NotAbove (less : V → V → Bool) (p : V) (a : Int → V) (l u : Int) : Prop := ∀ k, l ≤ k → k ≤ u → less (a k) p = false

/-- The values in the range satisfy `E`. -/
def Elements (E : V → Prop) (a : Int → V) (l u : Int) : Prop := ∀ k, l ≤ k → k ≤ u → E (a k)

@[simp] theorem set2_exchange (s : Sorting V) (i j : Int) : (s.set2 i j (s.a j) (s.a i)).a = exchange s.a i j := rfl

theorem eval_sortComp (less : V → V → Bool) (site : Site) (x y : V) (s : Sorting V) :
    (sortComp site x y s).eval (answers less) = .ok (less x y) := rfl

/-! ## Scans -/

/-- A scan stops at the first element that is not less than the pivot, if there is one. -/
theorem scanUp_stops {p : V} {i m : Int} (above : i < m) (inside : m ≤ u) (stop : less (s.a m) p = false) :
    ∃ i' s', (scanUp l u p i s).eval (answers less) = .ok (i', s.a i', s') ∧ s'.a = s.a ∧ i < i' ∧ i' ≤ m ∧
      less (s.a i') p = false ∧ ∀ k, i < k → k < i' → less (s.a k) p = true := by
  induction distance : (m - i).toNat generalizing i s with
  | zero => omega
  | succ d inductionHypothesis =>
    rw [scanUp]
    simp only [Sorting.rawgeti]
    rw [Interaction.eval_bind_ok (eval_sortComp less _ _ _ _)]
    cases here : less (s.a (i + 1)) p with
    | false => exact ⟨i + 1, _, rfl, rfl, by omega, by omega, here, by omega⟩
    | true =>
      have further : i + 1 < m := by
        by_contra last
        obtain rfl : m = i + 1 := by omega
        rw [here] at stop
        cases stop
      rw [if_pos rfl, if_neg (by omega)]
      obtain ⟨i', s', scanned, same, low, high, stopped, passed⟩ :=
        @inductionHypothesis { s with keys := (i + 1) :: s.keys } (i + 1) further stop (by omega)
      refine ⟨i', s', scanned, same, by omega, high, stopped, fun k low high => ?_⟩
      by_cases first : k = i + 1
      · rw [first, here]
      · exact passed k (by omega) high

theorem scanDown_stops {p : V} {j m : Int} (below : m < j) (inside : l ≤ m) (stop : less p (s.a m) = false) :
    ∃ j' s', (scanDown l u p j s).eval (answers less) = .ok (j', s.a j', s') ∧ s'.a = s.a ∧ m ≤ j' ∧ j' < j ∧
      less p (s.a j') = false ∧ ∀ k, j' < k → k < j → less p (s.a k) = true := by
  induction distance : (j - m).toNat generalizing j s with
  | zero => omega
  | succ d inductionHypothesis =>
    rw [scanDown]
    simp only [Sorting.rawgeti]
    rw [Interaction.eval_bind_ok (eval_sortComp less _ _ _ _)]
    cases here : less p (s.a (j - 1)) with
    | false => exact ⟨j - 1, _, rfl, rfl, by omega, by omega, here, by omega⟩
    | true =>
      have further : m < j - 1 := by
        by_contra last
        obtain rfl : m = j - 1 := by omega
        rw [here] at stop
        cases stop
      rw [if_pos rfl, if_neg (by omega)]
      obtain ⟨j', s', scanned, same, low, high, stopped, passed⟩ :=
        @inductionHypothesis { s with keys := (j - 1) :: s.keys } (j - 1) further stop (by omega)
      refine ⟨j', s', scanned, same, low, by omega, stopped, fun k low high => ?_⟩
      by_cases first : k = j - 1
      · rw [first, here]
      · exact passed k low (by omega)

/-! ## Splitting -/

/-- At the beginning of an iteration: what lies up to `i` and what lies from `j` on is on its side of the pivot. -/
structure Split (E : V → Prop) (less : V → V → Bool) (p : V) (l u i j : Int) (a : Int → V) : Prop where
  elements : Elements E a l u
  low : l ≤ i
  apart : i ≤ j
  inner : i < u - 1
  above : l < j
  high : j ≤ u - 1
  below : NotBelow less p a l i
  beyond : NotAbove less p a j u
  pivot : a (u - 1) = p

/-- What is reached when the scans have met. -/
structure Parted (less : V → V → Bool) (p : V) (l u i : Int) (a : Int → V) : Prop where
  low : l < i
  high : i ≤ u - 1
  below : NotBelow less p a l (i - 1)
  beyond : NotAbove less p a i u
  pivot : a (u - 1) = p

theorem splitLoop_spec (order : StrictWeakOrder E less) {p : V} (left : Nat) {i j : Int}
    (split : Split E less p l u i j s.a) (enough : j - i < left) :
    ∃ i' s', (splitLoop l u p left i j s).eval (answers less) = .ok (i', s') ∧ Rearranges l u s.a s'.a ∧
      Parted less p l u i' s'.a := by
  induction left generalizing i j s with
  | zero =>
    have := split.apart
    omega
  | succ left inductionHypothesis =>
    obtain ⟨elements, low, apart, inner, above, high, below, beyond, pivot⟩ := split
    have isElement : E p := pivot ▸ elements (u - 1) (by omega) (by omega)
    rw [splitLoop]
    obtain ⟨i', s₁, scannedUp, same₁, lowUp, highUp, stoppedUp, passedUp⟩ :=
      @scanUp_stops V less l u s p i (max j (i + 1)) (by omega) (by omega) (beyond _ (by omega) (by omega))
    rw [Interaction.eval_bind_ok scannedUp]
    obtain ⟨j', s₂, scannedDown, same₂, lowDown, highDown, stoppedDown, passedDown⟩ :=
      @scanDown_stops V less l u s₁ p j (min i (j - 1)) (by omega) (by omega)
        (by rw [same₁]; exact below _ (by omega) (by omega))
    rw [same₁] at scannedDown same₂ stoppedDown passedDown
    simp only
    rw [Interaction.eval_bind_ok scannedDown]
    by_cases met : j' < i'
    · simp only [if_pos met]
      refine ⟨i', s₂, rfl, same₂ ▸ .refl l u s.a, by omega, by omega, ?_, ?_, by rw [same₂, pivot]⟩
      · intro k atLeast atMost
        rw [same₂]
        by_cases old : k ≤ i
        · exact below k atLeast old
        · exact order.asymm (elements k atLeast (by omega)) isElement (passedUp k (by omega) (by omega))
      · intro k atLeast atMost
        rw [same₂]
        by_cases old : j ≤ k
        · exact beyond k old atMost
        · exact order.asymm isElement (elements k (by omega) atMost) (passedDown k (by omega) (by omega))
    · simp only [if_neg met]
      -- the two elements that have stopped the scans change sides
      have swapped : (s₂.set2 i' j' (s.a j') (s.a i')).a = exchange s.a i' j' := by
        rw [← same₂]
        rfl
      have rearranged : Rearranges l u s.a (exchange s.a i' j') := .exchange s.a (by omega) (by omega)
      obtain ⟨i'', s₃, ran, rearranged', parted⟩ := @inductionHypothesis (s₂.set2 i' j' (s.a j') (s.a i')) i' j' (by
        rw [swapped]
        refine ⟨rearranged.forall_range elements, by omega, by omega, by omega, by omega, by omega, ?_, ?_, ?_⟩
        · intro k atLeast atMost
          by_cases last : k = i'
          · rw [last, exchange_first]
            exact stoppedDown
          · rw [exchange_other _ last (by omega)]
            by_cases old : k ≤ i
            · exact below k atLeast old
            · exact order.asymm (elements k atLeast (by omega)) isElement (passedUp k (by omega) (by omega))
        · intro k atLeast atMost
          by_cases first : k = j'
          · rw [first, exchange_second]
            exact stoppedUp
          · rw [exchange_other _ (by omega) first]
            by_cases old : j ≤ k
            · exact beyond k old atMost
            · exact order.asymm isElement (elements k (by omega) atMost) (passedDown k (by omega) (by omega))
        · rw [exchange_other _ (by omega) (by omega), pivot]) (by omega)
      rw [swapped] at rearranged'
      exact ⟨i'', s₃, ran, rearranged.trans rearranged', parted⟩

/-! ## The median of three -/

theorem sortEnds_spec (order : StrictWeakOrder E less) (elements : Elements E s.a l u) (range : l < u) :
    ∃ s', (sortEnds l u s).eval (answers less) = .ok s' ∧ Rearranges l u s.a s'.a ∧ less (s'.a u) (s'.a l) = false := by
  simp only [sortEnds, Sorting.rawgeti]
  rw [Interaction.eval_bind_ok (eval_sortComp less _ _ _ _)]
  cases compared : less (s.a u) (s.a l) with
  | false => exact ⟨_, rfl, .refl l u s.a, compared⟩
  | true =>
    refine ⟨_, rfl, .exchange s.a (i := l) (j := u) (by omega) (by omega), ?_⟩
    change less (exchange s.a l u u) (exchange s.a l u l) = false
    rw [exchange_second, exchange_first]
    exact order.asymm (elements u (by omega) (by omega)) (elements l (by omega) (by omega)) compared

theorem sortMiddle_spec (order : StrictWeakOrder E less) (elements : Elements E s.a l u) {i : Int} (low : l < i) (high : i < u)
    (ends : less (s.a u) (s.a l) = false) :
    ∃ s', (sortMiddle l u i s).eval (answers less) = .ok s' ∧ Rearranges l u s.a s'.a ∧
      less (s'.a i) (s'.a l) = false ∧ less (s'.a u) (s'.a i) = false := by
  have isElement (k : Int) (low : l ≤ k) (high : k ≤ u) : E (s.a k) := elements k low high
  simp only [sortMiddle, Sorting.rawgeti]
  rw [Interaction.eval_bind_ok (eval_sortComp less _ _ _ _)]
  cases compared : less (s.a i) (s.a l) with
  | true =>
    refine ⟨_, rfl, .exchange s.a (i := i) (j := l) (by omega) (by omega), ?_⟩
    change less (exchange s.a i l i) (exchange s.a i l l) = false ∧ less (exchange s.a i l u) (exchange s.a i l i) = false
    rw [exchange_first, exchange_second, exchange_other _ (by omega) (by omega)]
    exact ⟨order.asymm (isElement i (by omega) (by omega)) (isElement l (by omega) (by omega)) compared, ends⟩
  | false =>
    simp only [Bool.false_eq_true, if_false]
    rw [Interaction.eval_bind_ok (eval_sortComp less _ _ _ _)]
    cases compared' : less (s.a u) (s.a i) with
    | true =>
      refine ⟨_, rfl, .exchange s.a (i := i) (j := u) (by omega) (by omega), ?_⟩
      change less (exchange s.a i u i) (exchange s.a i u l) = false ∧ less (exchange s.a i u u) (exchange s.a i u i) = false
      rw [exchange_first, exchange_second, exchange_other _ (by omega) (by omega)]
      exact ⟨ends, order.asymm (isElement u (by omega) (by omega)) (isElement i (by omega) (by omega)) compared'⟩
    | false => exact ⟨_, rfl, .refl l u s.a, compared, compared'⟩

/-! ## A range -/

/-- The pivot is in its place. -/
structure Partitioned (less : V → V → Bool) (l u i : Int) (a : Int → V) : Prop where
  low : l < i
  high : i < u
  below : NotBelow less (a i) a l (i - 1)
  beyond : NotAbove less (a i) a (i + 1) u

theorem partitionRange_spec (order : StrictWeakOrder E less) (elements : Elements E s.a l u) (large : l + 3 ≤ u) {i : Int}
    (low : l < i) (high : i ≤ u - 1) (below : less (s.a i) (s.a l) = false) (above : less (s.a u) (s.a i) = false) :
    ∃ i' s', (partitionRange l u i s).eval (answers less) = .ok (i', s') ∧ Rearranges l u s.a s'.a ∧
      Partitioned less l u i' s'.a := by
  have rearranged : Rearranges l u s.a (exchange s.a i (u - 1)) := .exchange s.a (by omega) (by omega)
  have split : Split E less (s.a i) l u l (u - 1) (exchange s.a i (u - 1)) := by
    refine ⟨rearranged.forall_range elements, by omega, by omega, by omega, by omega, by omega, ?_, ?_, exchange_second ..⟩
    · intro k atLeast atMost
      obtain rfl : k = l := by omega
      rwa [exchange_other _ (by omega) (by omega)]
    · intro k atLeast atMost
      by_cases last : k = u
      · rwa [last, exchange_other _ (by omega) (by omega)]
      · obtain rfl : k = u - 1 := by omega
        rw [exchange_second]
        exact order.irrefl (elements i (by omega) (by omega))
  simp only [partitionRange, Sorting.rawgeti]
  generalize started : Sorting.set2 _ i (u - 1) (s.a (u - 1)) (s.a i) = s₀
  have same : s₀.a = exchange s.a i (u - 1) := by
    rw [← started]
    rfl
  obtain ⟨i', s₁, ran, rearranged', parted⟩ := splitLoop_spec order (u - l).toNat (same ▸ split) (by omega)
  rw [Interaction.eval_bind_ok ran]
  refine ⟨i', _, rfl, ?_⟩
  rw [same] at rearranged'
  obtain ⟨low', high', below', beyond', pivot⟩ := parted
  change Rearranges l u s.a (exchange s₁.a (u - 1) i') ∧ Partitioned less l u i' (exchange s₁.a (u - 1) i')
  refine ⟨(rearranged.trans rearranged').trans (.exchange s₁.a (by omega) (by omega)), low', by omega, ?_, ?_⟩
  · intro k atLeast atMost
    rw [exchange_second, pivot, exchange_other _ (by omega) (by omega)]
    exact below' k atLeast atMost
  · intro k atLeast atMost
    rw [exchange_second, pivot]
    by_cases last : k = u - 1
    · rw [last, exchange_first]
      exact beyond' i' (by omega) (by omega)
    · rw [exchange_other _ last (by omega)]
      exact beyond' k (by omega) atMost

/-! ## The whole array -/

theorem middle_eq (low : 1 ≤ l) (high : u < 2 ^ 30) (range : l < u) : middle l u = (l + u) / 2 := by
  have fits : wrapInt (l + u) = l + u := by
    simp only [wrapInt]
    omega
  rw [middle, fits, Int.tdiv_eq_ediv_of_nonneg (by omega)]

theorem SortedOn.congr (sorted : SortedOn less a l u) (same : ∀ k, l ≤ k → k ≤ u → b k = a k) : SortedOn less b l u := by
  intro k m low between high
  rw [same k low (by omega), same m (by omega) high]
  exact sorted k m low between high

namespace Partitioned

variable {i : Int}

theorem left (parted : Partitioned less l u i a) (rearranged : Rearranges l (i - 1) a b) : Partitioned less l u i b := by
  have pivot : b i = a i := rearranged.outside (by omega)
  refine ⟨parted.low, parted.high, ?_, fun k low high => ?_⟩
  · rw [pivot]
    exact @Rearranges.forall_range _ _ _ _ _ rearranged (fun v => less (a i) v = false) parted.below
  · rw [pivot, rearranged.outside (by omega)]
    exact parted.beyond k low high

theorem right (parted : Partitioned less l u i a) (rearranged : Rearranges (i + 1) u a b) : Partitioned less l u i b := by
  have pivot : b i = a i := rearranged.outside (by omega)
  refine ⟨parted.low, parted.high, fun k low high => ?_, ?_⟩
  · rw [pivot, rearranged.outside (by omega)]
    exact parted.below k low high
  · rw [pivot]
    exact @Rearranges.forall_range _ _ _ _ _ rearranged (fun v => less v (a i) = false) parted.beyond

/-- Both sides of the pivot are sorted. -/
theorem sortedOn (order : StrictWeakOrder E less) (parted : Partitioned less l u i a) (elements : Elements E a l u)
    (left : SortedOn less a l (i - 1)) (right : SortedOn less a (i + 1) u) : SortedOn less a l u := by
  have bounds := parted.low
  have bounds' := parted.high
  intro k m low between high
  obtain above | rfl | below := lt_trichotomy k i
  · obtain above' | rfl | below' := lt_trichotomy m i
    · exact left k m low between (by omega)
    · exact parted.below k low (by omega)
    · exact order.notLess_trans (elements m (by omega) high) (elements i (by omega) (by omega)) (elements k low (by omega))
        (parted.beyond m (by omega) high) (parted.below k low (by omega))
  · exact parted.beyond m (by omega) high
  · exact right k m (by omega) between high

end Partitioned

/-- With enough depth a range is sorted. -/
theorem auxsort_spec (order : StrictWeakOrder E less) (depth : Nat) {l u : Int} {s : Sorting V} (elements : Elements E s.a l u)
    (low : 1 ≤ l) (high : u < 2 ^ 30) (enough : u - l + 1 < depth) (positive : 0 < depth) :
    ∃ s', (auxsort depth l u s).eval (answers less) = .ok s' ∧ Rearranges l u s.a s'.a ∧ SortedOn less s'.a l u := by
  induction depth generalizing l u s with
  | zero => omega
  | succ depth inductionHypothesis =>
    rw [auxsort]
    by_cases range : l < u
    · rw [if_pos range]
      obtain ⟨s₁, ran₁, rearranged₁, ends⟩ := sortEnds_spec order elements range
      have elements₁ : Elements E s₁.a l u := rearranged₁.forall_range elements
      rw [Interaction.eval_bind_ok ran₁]
      by_cases two : u - l = 1
      · simp only [if_pos two]
        refine ⟨s₁, rfl, rearranged₁, fun k m low between high => ?_⟩
        obtain rfl : k = l := by omega
        obtain rfl : m = u := by omega
        exact ends
      · simp only [if_neg two]
        have position := middle_eq low high range
        obtain ⟨s₂, ran₂, rearranged₂, below, above⟩ :=
          @sortMiddle_spec _ _ _ _ _ s₁ order elements₁ (middle l u) (by omega) (by omega) ends
        have elements₂ : Elements E s₂.a l u := rearranged₂.forall_range elements₁
        rw [Interaction.eval_bind_ok ran₂]
        by_cases three : u - l = 2
        · simp only [if_pos three]
          refine ⟨s₂, rfl, rearranged₁.trans rearranged₂, fun k m low between high => ?_⟩
          have middle : middle l u = l + 1 := by omega
          rw [middle] at below above
          obtain rfl | rfl : k = l ∨ k = l + 1 := by omega
          · obtain rfl | rfl : m = k + 1 ∨ m = u := by omega
            · exact below
            · exact order.notLess_trans (elements₂ m (by omega) high) (elements₂ (k + 1) (by omega) (by omega))
                (elements₂ k low (by omega)) above below
          · obtain rfl : m = u := by omega
            exact above
        · simp only [if_neg three]
          obtain ⟨i, s₃, ran₃, rearranged₃, parted⟩ := @partitionRange_spec _ _ _ _ _ s₂ order elements₂ (by omega) (middle l u)
            (by omega) (by omega) below above
          have elements₃ : Elements E s₃.a l u := rearranged₃.forall_range elements₂
          have before := (rearranged₁.trans rearranged₂).trans rearranged₃
          have bounds := parted.low
          have bounds' := parted.high
          rw [Interaction.eval_bind_ok ran₃]
          by_cases smaller : i - l < u - i
          · simp only [if_pos smaller]
            obtain ⟨s₄, ran₄, rearranged₄, left⟩ := @inductionHypothesis l (i - 1) s₃
              (fun k low high => elements₃ k low (by omega)) low (by omega) (by omega) (by omega)
            have elements₄ : Elements E s₄.a l u := (rearranged₄.mono (le_refl l) (by omega)).forall_range elements₃
            obtain ⟨s₅, ran₅, rearranged₅, right⟩ := @inductionHypothesis (i + 1) u s₄
              (fun k low high => elements₄ k (by omega) high) (by omega) high (by omega) (by omega)
            have after := (rearranged₄.mono (le_refl l) (by omega : i - 1 ≤ u)).trans
              (rearranged₅.mono (by omega) (le_refl u))
            rw [Interaction.eval_bind_ok ran₄]
            refine ⟨s₅, ran₅, before.trans after, ?_⟩
            apply ((parted.left rearranged₄).right rearranged₅).sortedOn order (after.forall_range elements₃) _ right
            exact left.congr fun k _ high => rearranged₅.outside (by omega)
          · simp only [if_neg smaller]
            obtain ⟨s₄, ran₄, rearranged₄, right⟩ := @inductionHypothesis (i + 1) u s₃
              (fun k low high => elements₃ k (by omega) high) (by omega) high (by omega) (by omega)
            have elements₄ : Elements E s₄.a l u := (rearranged₄.mono (by omega) (le_refl u)).forall_range elements₃
            obtain ⟨s₅, ran₅, rearranged₅, left⟩ := @inductionHypothesis l (i - 1) s₄
              (fun k low high => elements₄ k low (by omega)) low (by omega) (by omega) (by omega)
            have after := (rearranged₄.mono (by omega : l ≤ i + 1) (le_refl u)).trans
              (rearranged₅.mono (le_refl l) (by omega))
            rw [Interaction.eval_bind_ok ran₄]
            refine ⟨s₅, ran₅, before.trans after, ?_⟩
            apply ((parted.right rearranged₄).left rearranged₅).sortedOn order (after.forall_range elements₃) left
            exact right.congr fun k low _ => rearranged₅.outside (by omega)
    · rw [if_neg range]
      exact ⟨s, rfl, .refl l u s.a, fun k m low between high => by omega⟩

/-- `table.sort` ends without an error and leaves the elements of an array sorted. -/
theorem sort_sorts {n : Int} (small : n < 2 ^ 30) (order : StrictWeakOrder (fun v => ∃ k, 1 ≤ k ∧ k ≤ n ∧ a k = v) less) :
    ∃ depth s, (sort depth n a).eval (answers less) = .ok s ∧
      (Finset.Icc 1 n).val.map s.a = (Finset.Icc 1 n).val.map a ∧
      ∀ k m, 1 ≤ k → k < m → m ≤ n → less (s.a m) (s.a k) = false := by
  obtain ⟨s, ran, rearranged, sorted⟩ := @auxsort_spec V _ less order (n.toNat + 2) 1 n ⟨a, []⟩
    (fun k low high => ⟨k, low, high, rfl⟩) (le_refl 1) small (by omega) (by omega)
  exact ⟨n.toNat + 2, s, ran, rearranged.values, sorted⟩

/-- An array of five numbers. -/
def fiveNumbers (k : Int) : Nat := [3, 1, 2, 3, 0].getD (k.toNat - 1) 0

theorem sort_sorts_fiveNumbers : ∃ depth s, (sort depth 5 fiveNumbers).eval (answers fun x y => decide (x < y)) = .ok s ∧
    (Finset.Icc (1 : Int) 5).val.map s.a = (Finset.Icc (1 : Int) 5).val.map fiveNumbers ∧
    ∀ k m : Int, 1 ≤ k → k < m → m ≤ 5 → decide (s.a m < s.a k) = false := by
  apply sort_sorts (by decide)
  constructor
  · simp
  · intro x y z _ _ _
    simp only [decide_eq_true_eq]
    omega
  · intro x y z _ _ _
    simp only [decide_eq_false_iff_not]
    omega

end Gafq.TabLib
