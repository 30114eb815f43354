import Gafq.TableCounts
import Gafq.Verified.RehashRoom

/-! # Choosing the size of the array part for any keys

The slices that `numusearray` and `countint` count are those of the keys up to `MAXASIZE`.  `computesizes` stops
before the slice `MAXBITS+1`, since half of its upper bound is not smaller than the number of keys.
-/

namespace Gafq

open Base

variable {N : Type} {ints : List Nat} {nums : Nat → Nat}

/-! ## `computesizes` -/

/-- The loop that checks its accesses does what the other one does. -/
theorem computesizesWithinLoop_eq (keys : ArrayKeys ints) (counts : ∀ i, nums i = tally ints i) (fuel : Nat) :
    ∀ fuel' i na n, maxBits + 2 ≤ fuel + i → 0 < fuel → fuel' + i = ints.length + 1 →
      computesizesWithinLoop (counters nums) ints.length fuel i (2 ^ i) (below ints i) na n =
        .ok (computesizesLoop nums ints.length fuel' i (below ints i) na n) := by
  have few := keys.length_le
  induction fuel with
  | zero => exact fun _ _ _ _ _ none => absurd none (lt_irrefl 0)
  | succ fuel inductionHypothesis =>
    intro fuel' i na n enough _ spent
    unfold computesizesWithinLoop
    by_cases going : 2 ^ i / 2 < ints.length
    · -- a slice that is looked at has a counter
      have inside : i ≤ maxBits := by
        by_contra beyond
        have grown := half_mono (show maxBits + 1 ≤ i by omega)
        rw [two_pow_succ_half] at grown
        unfold maxASize at few
        omega
      obtain ⟨fuel', rfl⟩ : ∃ k, fuel' = k + 1 := by
        refine ⟨fuel' - 1, ?_⟩
        by_contra none
        obtain rfl : i = ints.length + 1 := by omega
        rw [two_pow_succ_half] at going
        have := @Nat.lt_two_pow_self ints.length
        omega
      have slice : Checked.get (counters nums) i = .ok (tally ints i) := by
        rw [Checked.get_of_lt (by simp [counters]; omega)]
        simp [counters, counts]
      have bound : 2 ^ i ≤ 2 ^ 26 := Nat.pow_le_pow_right (by decide) inside
      have total := below_succ keys.positive i
      have most := upTo_le_length ints (2 ^ i)
      have limit : maxASize = 2 ^ 26 := rfl
      have added : Checked.count (below ints i + tally ints i) = .ok (below ints i + tally ints i) :=
        Checked.count_of_lt (by omega)
      have doubled : Checked.count (2 ^ i * 2) = .ok (2 ^ (i + 1)) := by
        rw [Checked.count_of_lt (by omega), Nat.pow_succ]
      rw [computesizesLoop, if_pos going, if_pos going, slice]
      -- what follows a slice
      have next : ∀ na n, (if upTo ints (2 ^ i) = ints.length then .ok (n, na)
          else do
            let twotoi ← Checked.count (2 ^ i * 2)
            computesizesWithinLoop (counters nums) ints.length fuel (i + 1) twotoi (upTo ints (2 ^ i)) na n) =
          (.ok (if upTo ints (2 ^ i) = ints.length then (n, na)
            else computesizesLoop nums ints.length fuel' (i + 1) (upTo ints (2 ^ i)) na n) : Checked (Nat × Nat)) := by
        intro na n
        split
        · rfl
        · rw [doubled, ok_bind]
          exact inductionHypothesis fuel' (i + 1) _ _ (by omega) (by omega) (by omega)
      rw [total] at added
      by_cases some : 0 < tally ints i
      · simp only [ok_bind, gt_iff_lt, some, if_true, true_and, pure_eq_ok, counts i, total, added]
        split <;> exact next _ _
      · -- an empty slice changes nothing
        simp only [ok_bind, gt_iff_lt, some, if_false, false_and, pure_eq_ok, counts i, total]
        rw [show below ints i = upTo ints (2 ^ i) by omega]
        exact next _ _
    · rw [if_neg going]
      cases fuel' with
      | zero => rfl
      | succ fuel' =>
        rw [computesizesLoop, if_neg going]
        rfl

/-- `computesizes` reads only its counters, and its `int`s do not overflow. -/
theorem computesizesWithin_eq (keys : ArrayKeys ints) (counts : ∀ i, nums i = tally ints i) :
    computesizesWithin (counters nums) ints.length = .ok (computesizes nums ints.length) :=
  computesizesWithinLoop_eq keys counts (maxBits + 2) (ints.length + 1) 0 0 0 (by omega) (by omega) rfl

/-! ## The keys that are counted -/

variable [GafqNumber N]

theorem countKeys_spec (keys : List (TValue N)) (nums : Nat → Nat) (c : Nat) :
    countKeys keys (nums, c) =
      (fun l => nums l + tally (keys.flatMap keyInts) l, c + (keys.flatMap keyInts).length) := by
  induction keys generalizing nums c with
  | nil => rfl
  | cons key keys inductionHypothesis =>
    unfold countKeys
    simp only [countint_spec, inductionHypothesis, List.flatMap_cons, tally_append, List.length_append]
    refine Prod.ext (funext fun l => ?_) ?_
    · exact Nat.add_assoc _ _ _
    · exact Nat.add_assoc _ _ _

namespace Table

/-- The keys of the nodes below `i` that are in use, last one first. -/
def usedKeys (t : Table N) : Nat → List (TValue N)
  | 0 => []
  | i + 1 => if (t.node i).val.isNil then t.usedKeys i else (t.node i).key :: t.usedKeys i

/-- `numusehash` counts the keys of its nodes one by one. -/
theorem numusehashLoop_countKeys (t : Table N) (i : Nat) (nums : Nat → Nat) (ause totaluse : Nat) :
    t.numusehashLoop i (nums, ause, totaluse) =
      ((countKeys (t.usedKeys i) (nums, ause)).1, (countKeys (t.usedKeys i) (nums, ause)).2,
        totaluse + (t.usedKeys i).length) := by
  induction i generalizing nums ause totaluse with
  | zero => rfl
  | succ i inductionHypothesis =>
    unfold numusehashLoop usedKeys
    by_cases unused : (t.node i).val.isNil = true
    · rw [if_pos unused, if_pos unused, inductionHypothesis]
    · rw [if_neg unused, if_neg unused]
      simp only [inductionHypothesis, countKeys, List.length_cons]
      refine Prod.ext rfl (Prod.ext rfl ?_)
      dsimp only
      omega

/-- The integers that are counted for the array part of a table and for other keys. -/
def countedWith (t : Table N) (keys : List (TValue N)) : List Nat := t.cut.arrayInts ++ keys.flatMap keyInts

theorem countKeys_numusearray (t : Table N) (keys : List (TValue N)) :
    countKeys keys (t.numusearray fun _ => 0) = (tally (t.countedWith keys), (t.countedWith keys).length) := by
  rw [numusearray_eq, countKeys_spec]
  refine Prod.ext (funext fun l => ?_) ?_
  · simp only [countedWith, tally_append, Nat.zero_add]
  · exact List.length_append.symm

theorem mem_countedWith {t : Table N} {keys : List (TValue N)} {k : Nat} :
    k ∈ t.countedWith keys ↔ (1 ≤ k ∧ k ≤ maxASize) ∧
      ((k ≤ t.sizearray ∧ t.array (k - 1) ≠ .nil) ∨ ∃ key ∈ keys, arrayindex key = k) := by
  rw [countedWith, List.mem_append, arrayInts, mem_arrayIntsFrom, List.mem_flatMap]
  simp only [mem_keyInts, cut, le_min_iff]
  constructor
  · rintro (⟨⟨low, inside, high⟩, used⟩ | ⟨key, member, range, index⟩)
    · exact ⟨⟨low, high⟩, .inl ⟨inside, used⟩⟩
    · exact ⟨range, .inr ⟨key, member, index⟩⟩
  · rintro ⟨⟨low, high⟩, ⟨inside, used⟩ | ⟨key, member, index⟩⟩
    · exact .inl ⟨⟨low, inside, high⟩, used⟩
    · exact .inr ⟨key, member, ⟨low, high⟩, index⟩

theorem countedWith_arrayKeys {t : Table N} {keys : List (TValue N)} (distinct : (t.countedWith keys).Nodup) :
    ArrayKeys (t.countedWith keys) where
  nodup := distinct
  positive _ member := (mem_countedWith.1 member).1.1
  small _ member := (mem_countedWith.1 member).1.2

/-- `computesizes` finds the optimal array part for any different keys that have been counted: no counter beyond
`nums[MAXBITS]` is read, and no `int` overflows. -/
theorem computesizes_optimal (t : Table N) (keys : List (TValue N)) (distinct : (t.countedWith keys).Nodup) :
    let (nums, narray) := countKeys keys (t.numusearray fun _ => 0)
    ∃ n, OptimalSize (t.countedWith keys) n ∧
      computesizesWithin (counters nums) narray = .ok (n, upTo (t.countedWith keys) n) := by
  have arrayKeys := countedWith_arrayKeys distinct
  obtain ⟨optimal, count⟩ := computesizes_spec arrayKeys fun i => rfl
  rw [countKeys_numusearray]
  dsimp only
  refine ⟨_, optimal, ?_⟩
  rw [computesizesWithin_eq arrayKeys fun i => rfl, ← count]

/-- Three values in the array part. -/
def threeItems : Table Int :=
  { array := fun i => if i < 3 then .boolean true else .nil, sizearray := 3,
    node := fun _ => {}, lsizenode := 0, isDummy := true, lastfree := 0, flags := 0 }

def otherKeys : List (TValue Int) := [.number 5, .boolean true]

/-- The keys 1, 2, 3 and 5 ask for an array part of size 4, with three of them. -/
theorem computesizes_optimal_three :
    let (nums, narray) := countKeys otherKeys (threeItems.numusearray fun _ => 0)
    ∃ n, OptimalSize (threeItems.countedWith otherKeys) n ∧
      computesizesWithin (counters nums) narray = .ok (n, upTo (threeItems.countedWith otherKeys) n) :=
  computesizes_optimal threeItems otherKeys (by decide)

example : computesizesWithin (counters (tally [1, 2, 3, 5])) 4 = .ok (4, 3) := by decide

variable {mp : MainPosition N} {t : Table N} {ek : TValue N}

/-- The call in `rehash`. -/
theorem WellFormed.computesizesWithin_eq (wf : WellFormed mp t) (fresh : Fresh t ek) :
    computesizesWithin (counters (tally (t.intKeys ek))) (t.intKeys ek).length =
      .ok (computesizes (tally (t.intKeys ek)) (t.intKeys ek).length) :=
  Gafq.computesizesWithin_eq (wf.intKeys_arrayKeys fresh) fun _ => rfl

end Table

end Gafq
