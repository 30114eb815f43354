import Mathlib

/-! # Rearrangements of a range

A function from integer positions is rearranged within a range when its values there are permuted and the
values elsewhere stay.
-/

namespace Gafq.Base

variable {V : Type} {l u l' u' : Int} {a b c : Int → V}

def Rearranges (l u : Int) (a b : Int → V) : Prop :=
  ∃ σ : Equiv.Perm Int, (∀ k, ¬ (l ≤ k ∧ k ≤ u) → σ k = k) ∧ ∀ k, b k = a (σ k)

/-- Exchange the values at two positions. -/
def exchange (a : Int → V) (i j : Int) : Int → V := Function.update (Function.update a i (a j)) j (a i)

theorem exchange_first (a : Int → V) (i j : Int) : exchange a i j i = a j := by
  by_cases same : i = j
  · simp [exchange, same]
  · simp [exchange, Function.update_of_ne same]

theorem exchange_second (a : Int → V) (i j : Int) : exchange a i j j = a i := Function.update_self ..

theorem exchange_other (a : Int → V) {i j k : Int} (first : k ≠ i) (second : k ≠ j) : exchange a i j k = a k := by
  rw [exchange, Function.update_of_ne second, Function.update_of_ne first]

namespace Rearranges

theorem refl (l u : Int) (a : Int → V) : Rearranges l u a a := ⟨1, fun _ _ => rfl, fun _ => rfl⟩

theorem trans (first : Rearranges l u a b) (second : Rearranges l u b c) : Rearranges l u a c := by
  obtain ⟨σ, fixes, moved⟩ := first
  obtain ⟨τ, fixes', moved'⟩ := second
  refine ⟨σ * τ, fun k outside => ?_, fun k => ?_⟩
  · rw [Equiv.Perm.mul_apply, fixes' k outside, fixes k outside]
  · rw [Equiv.Perm.mul_apply, moved', moved]

theorem mono (rearranges : Rearranges l u a b) (low : l' ≤ l) (high : u ≤ u') : Rearranges l' u' a b := by
  obtain ⟨σ, fixes, moved⟩ := rearranges
  exact ⟨σ, fun k outside => fixes k (by omega), moved⟩

theorem exchange (a : Int → V) {i j : Int} (first : l ≤ i ∧ i ≤ u) (second : l ≤ j ∧ j ≤ u) :
    Rearranges l u a (exchange a i j) := by
  refine ⟨Equiv.swap i j, fun k outside => Equiv.swap_apply_of_ne_of_ne ?_ ?_, fun k => ?_⟩
  · rintro rfl
    exact outside first
  · rintro rfl
    exact outside second
  · simp only [Base.exchange, Function.update_apply, Equiv.swap_apply_def]
    split
    · next atSecond =>
      subst atSecond
      split <;> simp_all
    · split <;> rfl

theorem outside (rearranges : Rearranges l u a b) {k : Int} (outside : ¬ (l ≤ k ∧ k ≤ u)) : b k = a k := by
  obtain ⟨σ, fixes, moved⟩ := rearranges
  rw [moved, fixes k outside]

/-- A permutation that leaves the outside of a range alone maps the range to itself. -/
theorem maps_range {σ : Equiv.Perm Int} (fixes : ∀ k, ¬ (l ≤ k ∧ k ≤ u) → σ k = k) {k : Int} (inside : l ≤ k ∧ k ≤ u) :
    l ≤ σ k ∧ σ k ≤ u := by
  by_contra moved
  have same : σ k = k := σ.injective (fixes _ moved)
  rw [same] at moved
  exact moved inside

/-- What holds of all values in a range still does. -/
theorem forall_range (rearranges : Rearranges l u a b) {holds : V → Prop} (before : ∀ k, l ≤ k → k ≤ u → holds (a k)) (k : Int)
    (low : l ≤ k) (high : k ≤ u) : holds (b k) := by
  obtain ⟨σ, fixes, moved⟩ := rearranges
  obtain ⟨low', high'⟩ := maps_range fixes ⟨low, high⟩
  rw [moved]
  exact before _ low' high'

/-- The values in the range are the same, counted with their multiplicity. -/
theorem values (rearranges : Rearranges l u a b) : (Finset.Icc l u).val.map b = (Finset.Icc l u).val.map a := by
  obtain ⟨σ, fixes, moved⟩ := rearranges
  have range : (Finset.Icc l u).map σ.toEmbedding = Finset.Icc l u := by
    apply Finset.eq_of_subset_of_card_le
    · intro k member
      obtain ⟨k', member', rfl⟩ := Finset.mem_map.1 member
      rw [Finset.mem_Icc] at member' ⊢
      exact maps_range fixes member'
    · rw [Finset.card_map]
  have composed : b = a ∘ σ := funext moved
  rw [composed, ← Multiset.map_map]
  congr 1
  exact (Finset.map_val σ.toEmbedding _).symm.trans (congrArg Finset.val range)

end Rearranges

end Gafq.Base
