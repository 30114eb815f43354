import Gafq.Verified.TableInsert

/-! # The sizes that a rehash asks for

`rehash` counts the integer keys in slices between powers of two and lets `computesizes` choose the
array part from the counts.  The counts are those of the list `intKeys` of all integer keys in use,
and the choice is the largest power of two `n` such that more than half of `1 .. n` are in use.
-/

namespace Gafq

open Base

/-! ## Slices -/

/-- How many of the keys lie in the slice between `2^(lg-1)` and `2^lg`. -/
def tally (ints : List Nat) (lg : Nat) : Nat := ints.countP fun k => ceillog2 k == lg

@[simp] theorem tally_nil (lg : Nat) : tally [] lg = 0 := rfl

@[simp] theorem tally_append (ints ints' : List Nat) (lg : Nat) :
    tally (ints ++ ints') lg = tally ints lg + tally ints' lg := List.countP_append

/-- How many of the keys are at most `n`. -/
def upTo (ints : List Nat) (n : Nat) : Nat := ints.countP fun k => decide (k ≤ n)

@[simp] theorem upTo_append (ints ints' : List Nat) (n : Nat) :
    upTo (ints ++ ints') n = upTo ints n + upTo ints' n := List.countP_append

/-- The keys below a power of two are those of the slices up to it. -/
theorem upTo_succ_slice {ints : List Nat} (positive : ∀ k ∈ ints, 1 ≤ k) (i : Nat) :
    upTo ints (2 ^ (i + 1)) = upTo ints (2 ^ i) + tally ints (i + 1) := by
  induction ints with
  | nil => rfl
  | cons k ints inductionHypothesis =>
    simp only [List.mem_cons, forall_eq_or_imp] at positive
    have lower := @ceillog2_le_iff k i positive.1
    have upper := @ceillog2_le_iff k (i + 1) positive.1
    simp only [upTo, tally, List.countP_cons] at inductionHypothesis ⊢
    rw [inductionHypothesis positive.2]
    simp only [decide_eq_true_eq, beq_iff_eq]
    split <;> split <;> split <;> omega

theorem upTo_one_slice {ints : List Nat} (positive : ∀ k ∈ ints, 1 ≤ k) : upTo ints 1 = tally ints 0 := by
  induction ints with
  | nil => rfl
  | cons k ints inductionHypothesis =>
    simp only [List.mem_cons, forall_eq_or_imp] at positive
    have first := @ceillog2_le_iff k 0 positive.1
    simp only [upTo, tally, List.countP_cons] at inductionHypothesis ⊢
    rw [inductionHypothesis positive.2]
    simp only [decide_eq_true_eq, beq_iff_eq]
    split <;> split <;> omega

/-- Different keys that the array part could hold. -/
structure ArrayKeys (ints : List Nat) : Prop where
  nodup : ints.Nodup
  positive : ∀ k ∈ ints, 1 ≤ k
  small : ∀ k ∈ ints, k ≤ maxASize

/-- Different positive numbers up to `n` are at most `n` many. -/
theorem ArrayKeys.upTo_le {ints : List Nat} (keys : ArrayKeys ints) (n : Nat) : upTo ints n ≤ n := by
  have within : (ints.filter fun k => decide (k ≤ n)) ⊆ List.range' 1 n := by
    intro k member
    simp only [List.mem_filter, decide_eq_true_eq] at member
    have := keys.positive k member.1
    rw [List.mem_range'_1]
    omega
  have short := ((keys.nodup.filter _).subperm within).length_le
  rwa [← List.countP_eq_length_filter, List.length_range'] at short

theorem upTo_le_length (ints : List Nat) (n : Nat) : upTo ints n ≤ ints.length := List.countP_le_length

theorem ArrayKeys.length_le {ints : List Nat} (keys : ArrayKeys ints) : ints.length ≤ maxASize := by
  have all : upTo ints maxASize = ints.length := by
    rw [upTo, List.countP_eq_length]
    simpa using keys.small
  rw [← all]
  exact keys.upTo_le maxASize

theorem two_pow_succ_half (i : Nat) : 2 ^ (i + 1) / 2 = 2 ^ i := by
  rw [Nat.pow_succ]
  omega

/-! ## `computesizes` -/

/-- The largest power of two `n` such that more than half of `1 .. n` are keys, or zero. -/
structure OptimalSize (ints : List Nat) (n : Nat) : Prop where
  power : n = 0 ∨ ∃ i, n = 2 ^ i ∧ n / 2 < upTo ints n
  largest : ∀ i, 2 ^ i / 2 < upTo ints (2 ^ i) → 2 ^ i ≤ n

theorem OptimalSize.unique {ints : List Nat} {n n' : Nat} (first : OptimalSize ints n) (second : OptimalSize ints n') :
    n = n' := by
  have oneWay : ∀ {n n'}, OptimalSize ints n → OptimalSize ints n' → n ≤ n' := by
    intro n n' first second
    cases first.power with
    | inl zero => omega
    | inr power =>
      obtain ⟨i, rfl, more⟩ := power
      exact second.largest i more
  exact Nat.le_antisymm (oneWay first second) (oneWay second first)

theorem OptimalSize.le {ints : List Nat} {n : Nat} (optimal : OptimalSize ints n) (keys : ArrayKeys ints) :
    n ≤ maxASize := by
  cases optimal.power with
  | inl zero => omega
  | inr power =>
    obtain ⟨i, rfl, more⟩ := power
    cases i with
    | zero => decide
    | succ i =>
      -- the keys are not enough to fill half of a larger range
      rw [two_pow_succ_half] at more
      have few := (upTo_le_length ints (2 ^ (i + 1))).trans keys.length_le
      have exponent : i < maxBits := by
        rw [← Nat.pow_lt_pow_iff_right (show 1 < 2 by decide)]
        exact Nat.lt_of_lt_of_le more few
      exact Nat.pow_le_pow_right (by decide) exponent

section Computesizes

variable {ints : List Nat} {nums : Nat → Nat}

/-- What the loop has counted before slice `i`. -/
def below (ints : List Nat) : Nat → Nat
  | 0 => 0
  | i + 1 => upTo ints (2 ^ i)

theorem below_succ (positive : ∀ k ∈ ints, 1 ≤ k) (i : Nat) : below ints i + tally ints i = upTo ints (2 ^ i) := by
  cases i with
  | zero =>
    rw [Nat.pow_zero, upTo_one_slice positive]
    exact Nat.zero_add _
  | succ i => rw [below, upTo_succ_slice positive]

theorem below_le_half (keys : ArrayKeys ints) (i : Nat) : below ints i ≤ 2 ^ i / 2 := by
  cases i with
  | zero => exact Nat.zero_le _
  | succ i =>
    rw [two_pow_succ_half]
    exact keys.upTo_le (2 ^ i)

/-- The optimum when no larger power of two qualifies. -/
theorem OptimalSize.of_below {n i : Nat} (power : n = 0 ∨ ∃ j, n = 2 ^ j ∧ n / 2 < upTo ints n)
    (smaller : ∀ j < i, 2 ^ j / 2 < upTo ints (2 ^ j) → 2 ^ j ≤ n)
    (larger : ∀ j, i ≤ j → ¬ 2 ^ j / 2 < upTo ints (2 ^ j)) : OptimalSize ints n := by
  refine ⟨power, fun j more => ?_⟩
  by_cases early : j < i
  · exact smaller j early more
  · exact absurd more (larger j (by omega))

theorem half_mono {i j : Nat} (le : i ≤ j) : 2 ^ i / 2 ≤ 2 ^ j / 2 :=
  Nat.div_le_div_right (Nat.pow_le_pow_right (by decide) le)

theorem computesizesLoop_spec (keys : ArrayKeys ints) (counts : ∀ i, nums i = tally ints i) (fuel : Nat) :
    ∀ i na n, fuel + i = ints.length + 1 → na = upTo ints n →
      (n = 0 ∨ ∃ j, n = 2 ^ j ∧ n / 2 < upTo ints n) →
      (∀ j < i, 2 ^ j / 2 < upTo ints (2 ^ j) → 2 ^ j ≤ n) →
      OptimalSize ints (computesizesLoop nums ints.length fuel i (below ints i) na n).1 ∧
      (computesizesLoop nums ints.length fuel i (below ints i) na n).2 =
        upTo ints (computesizesLoop nums ints.length fuel i (below ints i) na n).1 := by
  -- beyond the number of keys no range is half full
  have exhausted : ∀ {i}, ints.length ≤ 2 ^ i / 2 → ∀ j, i ≤ j → ¬ 2 ^ j / 2 < upTo ints (2 ^ j) := by
    intro i few j later
    have := half_mono later
    have := upTo_le_length ints (2 ^ j)
    omega
  induction fuel with
  | zero =>
    intro i na n spent count power smaller
    have few : ints.length ≤ 2 ^ i / 2 := by
      have exponent : i = ints.length + 1 := by omega
      rw [exponent, two_pow_succ_half]
      exact Nat.lt_two_pow_self.le
    exact ⟨.of_below power smaller (exhausted few), count⟩
  | succ fuel inductionHypothesis =>
    intro i na n spent count power smaller
    unfold computesizesLoop
    by_cases going : 2 ^ i / 2 < ints.length
    · simp only [going, if_true, counts i, below_succ keys.positive i]
      have larger : ∀ n', (2 ^ i / 2 < upTo ints (2 ^ i) → 2 ^ i ≤ n') → n ≤ n' →
          ∀ j < i + 1, 2 ^ j / 2 < upTo ints (2 ^ j) → 2 ^ j ≤ n' := by
        intro n' here grown j early more
        by_cases last : j = i
        · subst last
          exact here more
        · exact (smaller j (by omega) more).trans grown
      -- the two values after this slice
      obtain ⟨n', na', values, count', power', smaller'⟩ : ∃ n' na',
          ((if 0 < tally ints i ∧ 2 ^ i / 2 < upTo ints (2 ^ i) then 2 ^ i else n) = n' ∧
          (if 0 < tally ints i ∧ 2 ^ i / 2 < upTo ints (2 ^ i) then upTo ints (2 ^ i) else na) = na') ∧
          na' = upTo ints n' ∧ (n' = 0 ∨ ∃ j, n' = 2 ^ j ∧ n' / 2 < upTo ints n') ∧
          ∀ j < i + 1, 2 ^ j / 2 < upTo ints (2 ^ j) → 2 ^ j ≤ n' := by
        by_cases fits : 0 < tally ints i ∧ 2 ^ i / 2 < upTo ints (2 ^ i)
        · refine ⟨_, _, ⟨if_pos fits, if_pos fits⟩, rfl, .inr ⟨i, rfl, fits.2⟩, ?_⟩
          intro j early _
          exact Nat.pow_le_pow_right (by decide) (by omega)
        · refine ⟨_, _, ⟨if_neg fits, if_neg fits⟩, count, power, larger n ?_ (le_refl _)⟩
          intro more
          have counted := below_succ keys.positive i
          have := below_le_half keys i
          exact absurd ⟨by omega, more⟩ fits
      rw [values.1, values.2]
      by_cases complete : upTo ints (2 ^ i) = ints.length
      · rw [if_pos complete]
        refine ⟨.of_below power' smaller' fun j later => ?_, count'⟩
        have := keys.upTo_le (2 ^ i)
        refine exhausted (i := i + 1) ?_ j later
        rw [two_pow_succ_half]
        omega
      · rw [if_neg complete]
        exact inductionHypothesis (i + 1) na' n' (by omega) count' power' smaller'
    · simp only [going, if_false]
      exact ⟨.of_below power smaller (exhausted (by omega)), count⟩

theorem computesizesLoop_count (positive : ∀ k ∈ ints, 1 ≤ k) (counts : ∀ i, nums i = tally ints i) (fuel : Nat) :
    ∀ i na n, na = upTo ints n →
      (computesizesLoop nums ints.length fuel i (below ints i) na n).2 =
        upTo ints (computesizesLoop nums ints.length fuel i (below ints i) na n).1 := by
  induction fuel with
  | zero => exact fun i na n count => count
  | succ fuel inductionHypothesis =>
    intro i na n count
    unfold computesizesLoop
    by_cases going : 2 ^ i / 2 < ints.length
    · simp only [going, if_true, counts i, below_succ positive i]
      have count' : (if 0 < tally ints i ∧ 2 ^ i / 2 < upTo ints (2 ^ i) then upTo ints (2 ^ i) else na) =
          upTo ints (if 0 < tally ints i ∧ 2 ^ i / 2 < upTo ints (2 ^ i) then 2 ^ i else n) := by
        split
        · rfl
        · exact count
      split
      · exact count'
      · exact inductionHypothesis (i + 1) _ _ count'
    · simp only [going, if_false]
      exact count

/-- The number of keys that go to the array part, also when some of the keys are the same. -/
theorem computesizes_count (positive : ∀ k ∈ ints, 1 ≤ k) (counts : ∀ i, nums i = tally ints i) :
    (computesizes nums ints.length).2 = upTo ints (computesizes nums ints.length).1 := by
  have none : 0 = upTo ints 0 := by
    symm
    rw [upTo, List.countP_eq_zero]
    intro k member
    have := positive k member
    simp only [decide_eq_true_eq]
    omega
  exact computesizesLoop_count positive counts (ints.length + 1) 0 0 0 none

/-- `computesizes` finds the optimal size and the number of keys that go to the array part. -/
theorem computesizes_spec (keys : ArrayKeys ints) (counts : ∀ i, nums i = tally ints i) :
    OptimalSize ints (computesizes nums ints.length).1 ∧
    (computesizes nums ints.length).2 = upTo ints (computesizes nums ints.length).1 := by
  have none : upTo ints 0 = 0 := by
    have := keys.upTo_le 0
    omega
  exact computesizesLoop_spec keys counts (ints.length + 1) 0 0 0 (by omega) none.symm (.inl rfl)
    fun j early => absurd early (Nat.not_lt_zero j)

end Computesizes

/-! ## Counting the keys in use -/

variable {N : Type}

namespace Table

/-- The indices from `i` on that the array part uses. -/
def arrayIntsFrom (t : Table N) (i : Nat) : List Nat :=
  (List.range' i (t.sizearray + 1 - i)).filter fun k => !(t.array (k - 1)).isNil

def arrayInts (t : Table N) : List Nat := t.arrayIntsFrom 1

theorem arrayIntsFrom_split (t : Table N) (i lim : Nat) (bound : lim ≤ t.sizearray) :
    t.arrayIntsFrom i =
      (List.range' i (lim + 1 - i)).filter (fun k => !(t.array (k - 1)).isNil) ++
        t.arrayIntsFrom (max i (lim + 1)) := by
  unfold arrayIntsFrom
  by_cases reached : i ≤ lim + 1
  · rw [Nat.max_eq_right reached, ← List.filter_append]
    congr 1
    have split := @List.range'_append_1 i (lim + 1 - i) (t.sizearray + 1 - (lim + 1))
    rw [show i + (lim + 1 - i) = lim + 1 by omega] at split
    rw [split]
    congr 1
    omega
  · rw [Nat.max_eq_left (by omega), show lim + 1 - i = 0 by omega]
    simp

theorem arrayIntsFrom_nil {t : Table N} {i : Nat} (beyond : t.sizearray < i) : t.arrayIntsFrom i = [] := by
  simp [arrayIntsFrom, show t.sizearray + 1 - i = 0 by omega]

/-- All keys of a slice fall into it. -/
theorem tally_slice {lg : Nat} {ints : List Nat} (slice : ∀ k ∈ ints, ceillog2 k = lg) (l : Nat) :
    tally ints l = if l = lg then ints.length else 0 := by
  unfold tally
  split
  · rename_i same
    rw [List.countP_eq_length]
    simpa [same] using slice
  · rename_i other
    rw [List.countP_eq_zero]
    intro k member
    simp only [slice k member, beq_iff_eq]
    exact fun same => other same.symm

theorem numusearrayLoop_spec {t : Table N} (small : t.sizearray ≤ maxASize) (slices : Nat) :
    ∀ lg i nums ause, slices + lg = maxBits + 1 → 1 ≤ i → (∀ k, i ≤ k → k ≤ t.sizearray → lg ≤ ceillog2 k) →
      t.numusearrayLoop slices lg i (nums, ause) =
        (fun l => nums l + tally (t.arrayIntsFrom i) l, ause + (t.arrayIntsFrom i).length) := by
  induction slices with
  | zero =>
    intro lg i nums ause last positive later
    have beyond : t.sizearray < i := by
      by_contra inside
      have := later i (le_refl _) (by omega)
      have := (@ceillog2_le_iff i maxBits positive).2 (by
        unfold maxASize at small
        omega)
      omega
    simp [numusearrayLoop, arrayIntsFrom_nil beyond]
  | succ slices inductionHypothesis =>
    intro lg i nums ause last positive later
    unfold numusearrayLoop
    by_cases ended : t.sizearray < 2 ^ lg ∧ min (2 ^ lg) t.sizearray < i
    · simp only [ended.1, ended.2, and_self, if_true]
      have beyond : t.sizearray < i := by omega
      simp [arrayIntsFrom_nil beyond]
    · simp only [ended, if_false]
      generalize limit : min (2 ^ lg) t.sizearray = lim at ended ⊢
      have slice : ∀ k ∈ (List.range' i (lim + 1 - i)).filter (fun k => !(t.array (k - 1)).isNil),
          ceillog2 k = lg := by
        intro k member
        rw [List.mem_filter, List.mem_range'_1] at member
        have := later k member.1.1 (by omega)
        have := (@ceillog2_le_iff k lg (by omega)).2 (by omega)
        omega
      have next : ∀ k, max i (lim + 1) ≤ k → k ≤ t.sizearray → lg + 1 ≤ ceillog2 k := by
        intro k above inside
        have := (@ceillog2_le_iff k lg (by omega)).1
        omega
      rw [inductionHypothesis (lg + 1) _ _ _ (by omega) (by omega) next,
        t.arrayIntsFrom_split i lim (by omega), List.countP_eq_length_filter]
      ext l
      · simp only [tally_append, tally_slice slice, Function.update_apply]
        split <;> simp_all
        omega
      · simp only [List.length_append]
        omega

theorem numusearray_spec {t : Table N} (small : t.sizearray ≤ maxASize) (nums : Nat → Nat) :
    t.numusearray nums = (fun l => nums l + tally t.arrayInts l, t.arrayInts.length) := by
  rw [numusearray, numusearrayLoop_spec small _ 0 1 nums 0 rfl (le_refl _) fun _ _ _ => Nat.zero_le _, Nat.zero_add]
  rfl

end Table

section Hash

variable [GafqNumber N]

/-- The index of a key that the array part could hold. -/
def keyInts (key : TValue N) : List Nat :=
  if 0 < arrayindex key ∧ arrayindex key ≤ maxASize then [(arrayindex key).toNat] else []

theorem countint_spec (key : TValue N) (nums : Nat → Nat) :
    countint key nums = (fun l => nums l + tally (keyInts key) l, (keyInts key).length) := by
  by_cases index : 0 < arrayindex key ∧ arrayindex key ≤ maxASize
  · simp only [countint, keyInts, if_pos index, List.length_singleton]
    refine Prod.ext (funext fun l => ?_) rfl
    simp only [tally, List.countP_singleton, Function.update_apply, beq_iff_eq]
    split <;> split <;> simp_all
  · simp only [countint, keyInts, if_neg index, tally_nil, Nat.add_zero, List.length_nil]

namespace Table

/-- The integer keys of the first `i` nodes that are in use. -/
def hashInts (t : Table N) : Nat → List Nat
  | 0 => []
  | i + 1 => (if (t.node i).val.isNil then [] else keyInts (t.node i).key) ++ t.hashInts i

/-- The number of the first `i` nodes that are in use. -/
def hashUsed (t : Table N) : Nat → Nat
  | 0 => 0
  | i + 1 => (if (t.node i).val.isNil then 0 else 1) + t.hashUsed i

theorem numusehashLoop_spec (t : Table N) (i : Nat) (nums : Nat → Nat) (ause totaluse : Nat) :
    t.numusehashLoop i (nums, ause, totaluse) =
      (fun l => nums l + tally (t.hashInts i) l, ause + (t.hashInts i).length, totaluse + t.hashUsed i) := by
  induction i generalizing nums ause totaluse with
  | zero => simp [numusehashLoop, hashInts, hashUsed]
  | succ i inductionHypothesis =>
    unfold numusehashLoop hashInts hashUsed
    by_cases unused : (t.node i).val.isNil = true
    · simp [unused, inductionHypothesis]
    · simp only [unused, Bool.false_eq_true, if_false, countint_spec, inductionHypothesis, tally_append,
        List.length_append]
      refine Prod.ext ?_ (Prod.ext ?_ ?_)
      · funext l
        simp only
        omega
      · simp only
        omega
      · simp only
        omega

/-- All integer keys that `rehash` counts. -/
def intKeys (t : Table N) (ek : TValue N) : List Nat := t.arrayInts ++ (t.hashInts t.sizenode ++ keyInts ek)

theorem rehashSizes_eq {t : Table N} (small : t.sizearray ≤ maxASize) (ek : TValue N) :
    t.rehashSizes ek =
      ((computesizes (tally (t.intKeys ek)) (t.intKeys ek).length).1,
        t.arrayInts.length + t.hashUsed t.sizenode + 1 -
          (computesizes (tally (t.intKeys ek)) (t.intKeys ek).length).2) := by
  have counts : (fun l => tally t.arrayInts l + tally (t.hashInts t.sizenode) l + tally (keyInts ek) l) =
      tally (t.intKeys ek) := by
    funext l
    simp only [intKeys, tally_append]
    omega
  have total : t.arrayInts.length + (t.hashInts t.sizenode).length + (keyInts ek).length =
      (t.intKeys ek).length := by
    simp only [intKeys, List.length_append]
    omega
  simp only [rehashSizes, numusearray_spec small, numusehash, numusehashLoop_spec, countint_spec, Nat.zero_add,
    counts, total]

/-! ## The keys are different -/

variable {mp : MainPosition N} {t : Table N} {ek : TValue N}

omit [GafqNumber N] in
theorem mem_arrayIntsFrom {k i : Nat} :
    k ∈ t.arrayIntsFrom i ↔ (i ≤ k ∧ k ≤ t.sizearray) ∧ t.array (k - 1) ≠ .nil := by
  simp only [arrayIntsFrom, List.mem_filter, List.mem_range'_1, Bool.not_eq_true', TValue.isNil_eq_false]
  constructor
  · rintro ⟨⟨low, high⟩, used⟩
    exact ⟨⟨low, by omega⟩, used⟩
  · rintro ⟨⟨low, high⟩, used⟩
    exact ⟨⟨low, by omega⟩, used⟩

theorem mem_keyInts {key : TValue N} {k : Nat} : k ∈ keyInts key ↔ (1 ≤ k ∧ k ≤ maxASize) ∧ arrayindex key = k := by
  unfold keyInts
  split
  · rename_i index
    rw [List.mem_singleton]
    omega
  · rename_i index
    simp only [List.not_mem_nil, false_iff]
    omega

theorem mem_hashInts {k i : Nat} :
    k ∈ t.hashInts i ↔ ∃ j < i, (t.node j).val ≠ .nil ∧ k ∈ keyInts (t.keys j) := by
  induction i with
  | zero => simp [hashInts]
  | succ i inductionHypothesis =>
    unfold hashInts
    rw [List.mem_append, inductionHypothesis]
    constructor
    · rintro (here | ⟨j, below, used, member⟩)
      · by_cases unused : (t.node i).val.isNil = true
        · simp [unused] at here
        · simp only [unused, Bool.false_eq_true, if_false] at here
          exact ⟨i, by omega, by simpa using unused, here⟩
      · exact ⟨j, by omega, used, member⟩
    · rintro ⟨j, below, used, member⟩
      by_cases here : j = i
      · subst here
        left
        have : (t.node j).val.isNil = false := by simpa using used
        simp only [this, Bool.false_eq_true, if_false]
        exact member
      · exact .inr ⟨j, by omega, used, member⟩

/-- Keys with the same index are equal. -/
theorem rawequal_of_keyInts {key key' : TValue N} {k : Nat} (first : k ∈ keyInts key) (second : k ∈ keyInts key') :
    rawequalObj key key' = true := by
  rw [mem_keyInts] at first second
  have positive : (1 : Int) ≤ k := by omega
  exact rawequalObj_trans (rawequalObj_symm (rawequal_of_arrayindex positive first.2))
    (rawequal_of_arrayindex positive second.2)

theorem WellFormed.hashInts_nodup (wf : WellFormed mp t) (i : Nat) : (t.hashInts i).Nodup := by
  induction i with
  | zero => exact List.nodup_nil
  | succ i inductionHypothesis =>
    unfold hashInts
    refine List.nodup_append.2 ⟨?_, inductionHypothesis, ?_⟩
    · split
      · exact List.nodup_nil
      · unfold keyInts
        split
        · exact List.nodup_singleton _
        · exact List.nodup_nil
    · intro k here k' member same
      subst same
      split at here
      · cases here
      · rename_i used
        obtain ⟨j, below, usedJ, also⟩ := mem_hashInts.1 member
        have presentI : t.keys i ≠ .nil := fun free => by simp [wf.unused free, TValue.isNil] at used
        have presentJ : t.keys j ≠ .nil := fun free => usedJ (wf.unused free)
        have := wf.scatter.distinct presentI presentJ (rawequal_of_keyInts here also)
        omega

theorem WellFormed.intKeys_arrayKeys (wf : WellFormed mp t) (fresh : Fresh t ek) : ArrayKeys (t.intKeys ek) where
  nodup := by
    have apartFromArray : ∀ {key : TValue N} {k}, ¬ t.InArray key → k ∈ t.arrayInts → k ∉ keyInts key := by
      intro key k outside member also
      rw [arrayInts, mem_arrayIntsFrom] at member
      rw [mem_keyInts] at also
      exact outside ⟨by omega, by omega⟩
    refine List.nodup_append.2 ⟨?_, List.nodup_append.2 ⟨wf.hashInts_nodup _, ?_, ?_⟩, ?_⟩
    · exact List.Nodup.filter _ List.nodup_range'
    · unfold keyInts
      split
      · exact List.nodup_singleton _
      · exact List.nodup_nil
    · intro k member k' also same
      subst same
      obtain ⟨j, -, used, member⟩ := mem_hashInts.1 member
      have present : t.keys j ≠ .nil := fun free => used (wf.unused free)
      have := fresh.absent j present
      rw [rawequal_of_keyInts member also] at this
      cases this
    · intro k member k' also same
      subst same
      cases List.mem_append.1 also with
      | inl inHash =>
        obtain ⟨j, -, used, also⟩ := mem_hashInts.1 inHash
        have present : t.keys j ≠ .nil := fun free => used (wf.unused free)
        exact apartFromArray (wf.apart present) member also
      | inr isNew => exact apartFromArray fresh.outside member isNew
  positive k member := by
    simp only [intKeys, List.mem_append, arrayInts, mem_arrayIntsFrom, mem_hashInts, mem_keyInts] at member
    obtain inArray | ⟨j, -, -, index⟩ | isNew := member <;> omega
  small k member := by
    have := wf.sizearray_le
    simp only [intKeys, List.mem_append, arrayInts, mem_arrayIntsFrom, mem_hashInts, mem_keyInts] at member
    obtain inArray | ⟨j, -, -, index⟩ | isNew := member <;> omega

/-! ## The size of the new hash part -/

/-- The key has no place in an array part of size `n`. -/
def keyNeed (n : Nat) (key : TValue N) : Nat := if 1 ≤ arrayindex key ∧ arrayindex key ≤ n then 0 else 1

/-- How many of the first `i` nodes need a node again beside an array part of size `n`. -/
def hashNeed (t : Table N) (n : Nat) : Nat → Nat
  | 0 => 0
  | i + 1 => (if (t.node i).val.isNil then 0 else keyNeed n (t.node i).key) + t.hashNeed n i

theorem keyNeed_add {n : Nat} (small : n ≤ maxASize) (key : TValue N) : keyNeed n key + upTo (keyInts key) n = 1 := by
  unfold keyNeed keyInts upTo
  by_cases index : 0 < arrayindex key ∧ arrayindex key ≤ maxASize
  · rw [if_pos index, List.countP_singleton]
    simp only [decide_eq_true_eq]
    split <;> split <;> omega
  · rw [if_neg index, if_neg (by omega)]
    rfl

theorem hashNeed_add {n : Nat} (small : n ≤ maxASize) (t : Table N) (i : Nat) :
    t.hashNeed n i + upTo (t.hashInts i) n = t.hashUsed i := by
  induction i with
  | zero => rfl
  | succ i inductionHypothesis =>
    unfold hashNeed hashInts hashUsed
    rw [upTo_append]
    split
    · simp only [upTo, List.countP_nil] at *
      omega
    · have := keyNeed_add small (t.node i).key
      omega

omit [GafqNumber N] in
theorem arrayInts_length (t : Table N) (n : Nat) :
    (t.arrayIntsFrom (n + 1)).length + upTo t.arrayInts n = t.arrayInts.length := by
  have all : t.arrayInts =
      (List.range' 1 (min n t.sizearray)).filter (fun k => !(t.array (k - 1)).isNil) ++ t.arrayIntsFrom (n + 1) := by
    rw [arrayInts, t.arrayIntsFrom_split 1 (min n t.sizearray) (by omega)]
    congr 1
    by_cases inside : n ≤ t.sizearray
    · rw [show max 1 (min n t.sizearray + 1) = n + 1 by omega]
    · rw [arrayIntsFrom_nil (i := n + 1) (by omega), arrayIntsFrom_nil (by omega)]
  have first : upTo ((List.range' 1 (min n t.sizearray)).filter fun k => !(t.array (k - 1)).isNil) n =
      ((List.range' 1 (min n t.sizearray)).filter fun k => !(t.array (k - 1)).isNil).length := by
    rw [upTo, List.countP_eq_length]
    intro k member
    rw [List.mem_filter, List.mem_range'_1] at member
    simp only [decide_eq_true_eq]
    omega
  have second : upTo (t.arrayIntsFrom (n + 1)) n = 0 := by
    rw [upTo, List.countP_eq_zero]
    intro k member
    rw [mem_arrayIntsFrom] at member
    simp only [decide_eq_true_eq]
    omega
  rw [all, upTo_append, first, second, List.length_append]
  omega

/-- `rehash` asks for the optimal array part and for exactly as many nodes as there are keys left. -/
theorem WellFormed.rehashSizes_spec (wf : WellFormed mp t) (fresh : Fresh t ek) :
    OptimalSize (t.intKeys ek) (t.rehashSizes ek).1 ∧ (t.rehashSizes ek).1 ≤ maxASize ∧
    (t.rehashSizes ek).2 = (t.arrayIntsFrom ((t.rehashSizes ek).1 + 1)).length +
      t.hashNeed (t.rehashSizes ek).1 t.sizenode + keyNeed (t.rehashSizes ek).1 ek := by
  have keys := wf.intKeys_arrayKeys fresh
  obtain ⟨optimal, count⟩ := computesizes_spec keys fun i => rfl
  have small := optimal.le keys
  rw [rehashSizes_eq wf.sizearray_le]
  refine ⟨optimal, small, ?_⟩
  simp only [count]
  generalize (computesizes (tally (t.intKeys ek)) (t.intKeys ek).length).1 = n at small ⊢
  have ofArray := arrayInts_length t n
  have ofHash := hashNeed_add small t t.sizenode
  have ofNew := keyNeed_add small ek
  simp only [intKeys, upTo_append]
  omega

end Table

end Hash

end Gafq
