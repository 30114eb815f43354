import Gafq.Boundary
import Gafq.Verified.TableChains
import Gafq.Verified.TableFailure

/-! # `gafqH_getn` finds a boundary

Neither search needs the indices that are present to be without gaps: they keep an index that is zero or
present below one that is absent, and come to an end between them.
-/

namespace Gafq.Table

open Base (Advances Ends loop)

variable {N : Type} [GafqNumber N] {mp : MainPosition N} {t : Table N} {top : Nat}

theorem toInt_eq {u : Nat} (small : u < 2 ^ 31) : toInt u = u := if_pos small

/-- Zero or a present index. -/
def LowEnd (mp : MainPosition N) (t : Table N) (i : Nat) : Prop := i = 0 ∨ t.index mp i ≠ .nil

/-- `n` is a boundary. -/
def Boundary (mp : MainPosition N) (t : Table N) (n : Nat) : Prop := LowEnd mp t n ∧ t.index mp (n + 1) = .nil

/-- What is known at the beginning of an iteration, when the index `top` is absent. -/
def SearchInvariant (mp : MainPosition N) (t : Table N) (top : Nat) : Searching → Prop
  | .array i j => j ≤ t.sizearray ∧ i < j ∧ LowEnd mp t i ∧ t.index mp j = .nil
  | .unbound i j => j ≤ top ∧ i < j ∧ LowEnd mp t i
  | .linear i => 1 ≤ i ∧ i ≤ top ∧ LowEnd mp t (i - 1)
  | .binary i j => j ≤ top ∧ i < j ∧ LowEnd mp t i ∧ t.index mp j = .nil

/-- Every iteration makes it smaller. -/
def searchMeasure : Searching → Nat
  | .array i j | .binary i j => j - i
  | .linear i => 2 ^ 31 - i
  | .unbound _ j => 2 ^ 32 + (2 ^ 32 - j)

theorem index_array {k : Nat} (size : t.sizearray < 2 ^ 31) (positive : 1 ≤ k) (inside : k ≤ t.sizearray) :
    t.index mp k = t.array (k - 1) := by
  rw [index, toInt_eq (by omega), getnum, if_pos (by omega), read, show ((k : Int) - 1).toNat = k - 1 by omega]

/-- The middle of a binary search. -/
theorem middle_between {i j : Nat} (apart : 1 < j - i) (small : j ≤ 2 ^ 31) :
    i < (i + j) % 2 ^ 32 / 2 ∧ (i + j) % 2 ^ 32 / 2 < j := by
  rw [Nat.mod_eq_of_lt (by omega)]
  omega

/-- What the loops return. -/
def FoundBoundary (mp : MainPosition N) (t : Table N) (top : Nat) (r : Int) : Prop :=
  ∃ n : Nat, r = n ∧ n + 1 ≤ max t.sizearray top ∧ Boundary mp t n

theorem searchStep_keeps (size : t.sizearray < 2 ^ 31) (large : maxInt < top) (small : top ≤ 2 ^ 31) (upTo : t.index mp top = .nil)
    (s : Searching) (holds : SearchInvariant mp t top s) :
    Advances (SearchInvariant mp t top) searchMeasure (FoundBoundary mp t top) (searchMeasure s) (t.searchStep mp s) := by
  have largest : maxInt = 2 ^ 31 - 3 := rfl
  cases s with
  | array i j =>
    obtain ⟨inside, below, low, high⟩ := holds
    simp only [searchStep]
    by_cases apart : 1 < j - i
    · obtain ⟨above, under⟩ := middle_between apart (by omega)
      generalize (i + j) % 2 ^ 32 / 2 = m at above under ⊢
      have held : t.index mp m = t.array (m - 1) := index_array size (by omega) (by omega)
      rw [if_pos apart]
      cases empty : (t.array (m - 1)).isNil with
      | true => exact ⟨⟨by omega, above, low, by simpa [held] using empty⟩, by simp only [searchMeasure]; omega⟩
      | false => exact ⟨⟨inside, under, .inr (by simpa [held] using empty), high⟩, by simp only [searchMeasure]; omega⟩
    · rw [if_neg apart]
      obtain rfl : j = i + 1 := by omega
      exact ⟨i, toInt_eq (by omega), by omega, low, high⟩
  | unbound i j =>
    obtain ⟨inside, below, low⟩ := holds
    simp only [searchStep]
    cases absent : (t.index mp j).isNil with
    | true => exact ⟨⟨inside, below, low, by simpa using absent⟩, by simp only [searchMeasure]; omega⟩
    | false =>
      have present : t.index mp j ≠ .nil := by simpa using absent
      have notLast : j ≠ top := fun same => present (same ▸ upTo)
      rw [Nat.mod_eq_of_lt (by omega)]
      by_cases overflow : maxInt < j * 2
      · simp only [Bool.not_false, if_true, overflow]
        exact ⟨⟨le_refl 1, by omega, .inl rfl⟩, by simp only [searchMeasure]; omega⟩
      · simp only [Bool.not_false, if_true, overflow, if_false]
        exact ⟨⟨by omega, by omega, .inr present⟩, by simp only [searchMeasure]; omega⟩
  | linear i =>
    obtain ⟨positive, inside, low⟩ := holds
    simp only [searchStep]
    cases absent : (t.index mp i).isNil with
    | true =>
      refine ⟨i - 1, toInt_eq (by omega), by omega, low, ?_⟩
      rw [show i - 1 + 1 = i by omega]
      simpa using absent
    | false =>
      have present : t.index mp i ≠ .nil := by simpa using absent
      have notLast : i ≠ top := fun same => present (same ▸ upTo)
      rw [Nat.mod_eq_of_lt (by omega)]
      exact ⟨⟨by omega, by omega, .inr present⟩, by simp only [searchMeasure]; omega⟩
  | binary i j =>
    obtain ⟨inside, below, low, high⟩ := holds
    simp only [searchStep]
    by_cases apart : 1 < j - i
    · obtain ⟨above, under⟩ := middle_between apart (by omega)
      generalize (i + j) % 2 ^ 32 / 2 = m at above under ⊢
      rw [if_pos apart]
      cases absent : (t.index mp m).isNil with
      | true => exact ⟨⟨by omega, above, low, by simpa using absent⟩, by simp only [searchMeasure]; omega⟩
      | false => exact ⟨⟨inside, under, .inr (by simpa using absent), high⟩, by simp only [searchMeasure]; omega⟩
    · rw [if_neg apart]
      obtain rfl : j = i + 1 := by omega
      exact ⟨i, toInt_eq (by omega), by omega, low, high⟩

/-- Nothing is found in a table without a hash part outside its array part. -/
theorem getnum_dummy (chained : ChainedIn 0 mp t) (isDummy : t.isDummy = true) {k : Int} (outside : ¬ (1 ≤ k ∧ k ≤ t.sizearray)) :
    t.read (t.getnum mp k) = .nil := by
  have bare := chained.bare isDummy
  rw [getnum, if_neg outside]
  cases found : t.search (TValue.isNumber (castNum k)) (mp.pos t.lsizenode (.number (castNum k))) with
  | node i =>
    have test := search_test found
    rw [bare i] at test
    cases test
  | array i =>
    simp only [search] at found
    split at found <;> cases found
  | nilobject => rfl

omit [GafqNumber N] in
theorem toInt_behind {u : Nat} (behind : t.sizearray < u) (small : u ≤ 2 ^ 31) :
    ¬ (1 ≤ toInt u ∧ toInt u ≤ t.sizearray) := by
  unfold toInt
  split <;> omega

theorem ChainedIn.getn_finds (chained : ChainedIn 0 mp t) (large : maxInt < top) (small : top ≤ 2 ^ 31) (absent : t.index mp top = .nil)
    (bounded : LowEnd mp t t.sizearray → t.sizearray < top) : ∃ fuel r, getn mp fuel t = some r ∧ FoundBoundary mp t top r := by
  have size : t.sizearray < 2 ^ 31 := by
    have := chained.inInt.2
    omega
  -- either loop starts with its invariant
  have loops {s : Searching} (start : SearchInvariant mp t top s) :
      ∃ fuel r, loop (t.searchStep mp) fuel s = some r ∧ FoundBoundary mp t top r := by
    obtain ⟨r, ⟨fuel, ran⟩, found⟩ := Ends.of_invariant (searchStep_keeps size large small absent) start
    exact ⟨fuel, r, ran, found⟩
  simp only [getn]
  by_cases inArray : 0 < t.sizearray ∧ (t.array (t.sizearray - 1)).isNil = true
  · have high : t.index mp t.sizearray = .nil := by
      rw [index_array size inArray.1 (le_refl _)]
      simpa using inArray.2
    simp only [if_pos inArray]
    exact loops (s := .array 0 t.sizearray) ⟨le_refl _, inArray.1, .inl rfl, high⟩
  · have low : LowEnd mp t t.sizearray := by
      by_cases some : 0 < t.sizearray
      · right
        rw [index_array size some (le_refl _)]
        intro empty
        exact inArray ⟨some, by simp [empty]⟩
      · exact .inl (by omega)
    have bound := bounded low
    simp only [if_neg inArray]
    cases isDummy : t.isDummy with
    | true =>
      refine ⟨0, t.sizearray, ?_, t.sizearray, rfl, by omega, low, ?_⟩
      · simp [toInt_eq size]
      · rw [index]
        exact getnum_dummy chained isDummy (toInt_behind (by omega) (by omega))
    | false =>
      have fits : (t.sizearray + 1) % 2 ^ 32 = t.sizearray + 1 := Nat.mod_eq_of_lt (by omega)
      simp only [Bool.false_eq_true, if_false, fits]
      exact loops (s := .unbound t.sizearray (t.sizearray + 1)) ⟨by omega, Nat.lt_succ_self _, low⟩

/-- The integer keys of the table are at most `MAX_INT`. -/
def UpToMaxInt (mp : MainPosition N) (t : Table N) : Prop :=
  ∀ k : Nat, maxInt < k → k < 2 ^ 31 → t.index mp k = .nil

theorem ChainedIn.getn_isBoundary (chained : ChainedIn 0 mp t) (upTo : UpToMaxInt mp t) :
    ∃ fuel r, getn mp fuel t = some r ∧ ∃ n : Nat, r = n ∧ n + 1 < 2 ^ 31 ∧ Boundary mp t n := by
  have size : t.sizearray < 2 ^ 31 := by
    have := chained.inInt.2
    omega
  have largest : maxInt = 2 ^ 31 - 3 := rfl
  have bounded : LowEnd mp t t.sizearray → t.sizearray < maxInt + 1 := by
    intro low
    by_contra beyond
    obtain none | present := low
    · omega
    · exact present (upTo _ (by omega) size)
  obtain ⟨fuel, r, ran, n, isN, small, boundary⟩ :=
    chained.getn_finds (Nat.lt_succ_self _) (by omega) (upTo _ (Nat.lt_succ_self _) (by omega)) bounded
  refine ⟨fuel, r, ran, n, isN, ?_, boundary⟩
  by_contra beyond
  have atSize : t.sizearray = 2 ^ 31 := by omega
  omega

/-- `gafqH_getn` ends with a boundary of every table whose integer keys are at most `MAX_INT`. -/
theorem getn_boundary (reachable : ReachableIn 0 mp t)
    (upTo : ∀ k : Int, maxInt < k → k < 2 ^ 31 → t.read (t.getnum mp k) = .nil) :
    ∃ fuel, ∃ n : Nat, getn mp fuel t = some (n : Int) ∧
      (n = 0 ∧ t.read (t.getnum mp 1) = .nil ∨
        0 < n ∧ t.read (t.getnum mp n) ≠ .nil ∧ t.read (t.getnum mp (n + 1)) = .nil) := by
  have upTo' : UpToMaxInt mp t := by
    intro k above small
    rw [index, toInt_eq small]
    exact upTo k (by omega) (by omega)
  obtain ⟨fuel, r, ran, n, rfl, small, low, high⟩ := (reachable.chained (Nat.zero_le _)).getn_isBoundary upTo'
  rw [index, toInt_eq small] at high
  refine ⟨fuel, n, ran, ?_⟩
  obtain rfl | positive := Nat.eq_zero_or_pos n
  · exact .inl ⟨rfl, high⟩
  · have present := low.resolve_left (by omega)
    rw [index, toInt_eq (by omega)] at present
    exact .inr ⟨positive, present, high⟩

end Gafq.Table

namespace Gafq

/-- A table with room for three elements. -/
def roomForThree : Table Int := Base.finalState (Table.setarrayvector true 3) Table.empty

/-- The table with its first element. -/
def oneOfThree : Table Int := Base.finalState (Table.storeAt (storeOne.insertionAt intPosition {} 0) storeOne.stored) roomForThree

theorem getn_boundary_oneOfThree : ∃ fuel, ∃ n : Nat, Table.getn intPosition fuel oneOfThree = some (n : Int) ∧
    (n = 0 ∧ oneOfThree.read (oneOfThree.getnum intPosition 1) = .nil ∨
      0 < n ∧ oneOfThree.read (oneOfThree.getnum intPosition n) ≠ .nil ∧
        oneOfThree.read (oneOfThree.getnum intPosition (n + 1)) = .nil) := by
  have created : ReachableIn 0 intPosition roomForThree :=
    @ReachableIn.new _ _ 0 intPosition {} 3 0 _ (by decide) rfl
  have stored : ReachableIn 0 intPosition oneOfThree :=
    created.store {} 0 ⟨rfl, fun i a used => absurd rfl used⟩ fun t' failed => by cases failed
  apply Table.getn_boundary stored
  intro k above _
  apply Table.getnum_dummy (stored.chained (Nat.zero_le _)) rfl
  have : (Table.maxInt : Int) = 2147483645 := rfl
  have : oneOfThree.sizearray = 3 := rfl
  omega

end Gafq
