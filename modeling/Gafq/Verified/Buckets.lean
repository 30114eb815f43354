import Gafq.String

/-! # The buckets of the string table

What chaining an entry and replacing a bucket do to the entries of all buckets.
-/

namespace Gafq.GC

/-! ## Replacing a bucket -/

theorem flatten_set_sublist {kept : List Nat} : ∀ {buckets : List (List Nat)} {i : Nat},
    kept.Sublist (buckets.getD i []) → (buckets.set i kept).flatten.Sublist buckets.flatten
  | [], _, _ => List.Sublist.slnil
  | _ :: _, 0, sublist => sublist.append (List.Sublist.refl _)
  | _ :: _, _ + 1, sublist => (List.Sublist.refl _).append (flatten_set_sublist sublist)

theorem getD_subset_flatten {a : Nat} : ∀ {buckets : List (List Nat)} {i : Nat},
    a ∈ buckets.getD i [] → a ∈ buckets.flatten
  | [], _, member => member
  | _ :: _, 0, member => List.mem_append_left _ member
  | _ :: _, _ + 1, member => List.mem_append_right _ (getD_subset_flatten member)

/-- An entry of a bucket is in no other bucket. -/
theorem mem_of_mem_flatten_set {a : Nat} {kept : List Nat} : ∀ {buckets : List (List Nat)} {i : Nat},
    buckets.flatten.Nodup → a ∈ buckets.getD i [] → a ∈ (buckets.set i kept).flatten → a ∈ kept
  | [], _, _, inBucket, _ => nomatch inBucket
  | _ :: _, 0, nodup, inBucket, member => (List.mem_append.1 member).resolve_right fun inRest =>
      List.disjoint_of_nodup_append nodup inBucket inRest
  | _ :: _, _ + 1, nodup, inBucket, member =>
      mem_of_mem_flatten_set (List.nodup_append.1 nodup).2.1 inBucket ((List.mem_append.1 member).resolve_left
        fun inHead => List.disjoint_of_nodup_append nodup inHead (getD_subset_flatten inBucket))

theorem mem_flatten_set {buckets : List (List Nat)} {i a : Nat} {kept : List Nat} (member : a ∈ buckets.flatten)
    (isKept : a ∈ buckets.getD i [] → a ∈ kept) : a ∈ (buckets.set i kept).flatten := by
  obtain ⟨bucket, inTable, inBucket⟩ := List.mem_flatten.1 member
  obtain ⟨j, inside, rfl⟩ := List.mem_iff_getElem.1 inTable
  by_cases same : j = i
  · subst same
    have here : buckets.getD j [] = buckets[j] := by simp [List.getD, inside]
    exact List.mem_flatten.2 ⟨kept, List.mem_set inside kept, isKept (here ▸ inBucket)⟩
  · refine List.mem_flatten.2 ⟨buckets[j], List.mem_iff_getElem.2 ⟨j, by simpa using inside, ?_⟩, inBucket⟩
    exact List.getElem_set_ne (Ne.symm same) _

/-! ## Chaining entries -/

theorem chain_length (hash : List (List Nat)) (i a : Nat) : (chain hash i a).length = hash.length := by simp [chain]

theorem mem_chain_drop {hash : List (List Nat)} {i a b n : Nat} (member : b ∈ (hash.drop n).flatten) :
    b ∈ ((chain hash i a).drop n).flatten := by
  obtain ⟨bucket, inTable, inBucket⟩ := List.mem_flatten.1 member
  obtain ⟨j, inside, rfl⟩ := List.mem_iff_getElem.1 inTable
  have inside' : n + j < hash.length := by
    rw [List.length_drop] at inside
    omega
  have here : j < ((chain hash i a).drop n).length := by
    rw [List.length_drop, chain_length]
    omega
  refine List.mem_flatten.2 ⟨((chain hash i a).drop n)[j], List.getElem_mem here, ?_⟩
  rw [List.getElem_drop] at inBucket ⊢
  simp only [chain, List.getElem_modify]
  split
  · exact List.mem_cons_of_mem _ inBucket
  · exact inBucket

theorem lmod_lt {h size : Nat} (positive : 0 < size) : lmod h size < size := by
  have : h &&& (size - 1) ≤ size - 1 := Nat.and_le_right
  unfold lmod
  omega

theorem chain_perm {a : Nat} : ∀ {hash : List (List Nat)} {i : Nat}, i < hash.length →
    (chain hash i a).flatten.Perm (a :: hash.flatten)
  | _ :: _, 0, _ => List.Perm.refl _
  | bucket :: _, _ + 1, inside =>
    ((chain_perm (Nat.lt_of_succ_lt_succ inside)).append_left bucket).trans List.perm_middle

theorem chainAll_perm (bucket : Nat → Nat) (as : List Nat) : ∀ {hash : List (List Nat)},
    (∀ a, bucket a < hash.length) →
    (as.foldl (fun hash a => chain hash (bucket a) a) hash).length = hash.length ∧
    (as.foldl (fun hash a => chain hash (bucket a) a) hash).flatten.Perm (as ++ hash.flatten) := by
  induction as with
  | nil => exact fun _ => ⟨rfl, List.Perm.refl _⟩
  | cons b as inductionHypothesis =>
    intro hash inside
    obtain ⟨length, perm⟩ := @inductionHypothesis (chain hash (bucket b) b) fun a => by
      rw [chain_length]
      exact inside a
    exact ⟨length.trans (chain_length _ _ _),
      perm.trans (((chain_perm (inside b)).append_left as).trans List.perm_middle)⟩

end Gafq.GC
