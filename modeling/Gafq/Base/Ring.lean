import Mathlib

/-! # Rings with a head

Doubly linked lists that are closed by a head, which is always there.  `next` and `prev` are the
link fields of all nodes.  Two operations are studied: linking a node behind the head, and taking a
node out wherever it is.
-/

namespace Gafq.Base

variable {ι : Type} {next prev next' prev' : ι → ι} {head x : ι} {nodes : List ι}

/-- The links lead through the list from left to right and back. -/
abbrev DoublyLinked (next prev : ι → ι) (list : List ι) : Prop := list.IsChain fun a b => next a = b ∧ prev b = a

/-- The nodes of the ring, in the order of the links. -/
structure Ring (next prev : ι → ι) (head : ι) (nodes : List ι) : Prop where
  nodup : (head :: nodes).Nodup
  linked : DoublyLinked next prev (head :: (nodes ++ [head]))

/-- Only the first element may lose its predecessor and only the last one its successor. -/
theorem DoublyLinked.congr {list : List ι} (linked : DoublyLinked next prev list)
    (sameNext : ∀ a ∈ list.dropLast, next' a = next a) (samePrev : ∀ b ∈ list.tail, prev' b = prev b) :
    DoublyLinked next' prev' list := by
  induction list with
  | nil => exact .nil
  | cons a rest inductionHypothesis =>
    cases rest with
    | nil => exact .singleton a
    | cons b rest =>
      obtain ⟨links, tail⟩ := List.isChain_cons_cons.1 linked
      refine List.isChain_cons_cons.2 ⟨⟨?_, ?_⟩, inductionHypothesis tail (fun c member => ?_) fun c member => ?_⟩
      · rw [sameNext a (by simp), links.1]
      · rw [samePrev b (by simp), links.2]
      · exact sameNext c (by rw [List.dropLast_cons_cons]; exact List.mem_cons_of_mem a member)
      · exact samePrev c (List.mem_cons_of_mem b member)

namespace Ring

theorem empty (next_head : next head = head) (prev_head : prev head = head) : Ring next prev head [] :=
  ⟨List.nodup_singleton head, List.isChain_pair.2 ⟨next_head, prev_head⟩⟩

/-- The links of other nodes do not matter. -/
theorem congr (ring : Ring next prev head nodes) (sameNext : ∀ a ∈ head :: nodes, next' a = next a)
    (samePrev : ∀ a ∈ head :: nodes, prev' a = prev a) : Ring next' prev' head nodes := by
  refine ⟨ring.nodup, DoublyLinked.congr ring.linked (fun a member => sameNext a ?_) fun b member => samePrev b ?_⟩
  · rw [← List.cons_append, List.dropLast_concat] at member
    exact member
  · rw [List.tail_cons] at member
    exact (List.mem_append.1 member).elim (List.mem_cons_of_mem head) fun isHead =>
      List.mem_singleton.1 isHead ▸ List.mem_cons_self

/-- The neighbours of a node of the ring. -/
theorem neighbours {xs ys : List ι} (ring : Ring next prev head (xs ++ x :: ys)) :
    (head :: xs).getLast? = some (prev x) ∧ (ys ++ [head]).head? = some (next x) := by
  have linked := ring.linked
  rw [List.append_assoc, List.cons_append, ← List.cons_append] at linked
  obtain ⟨-, right, joined⟩ := List.isChain_append.1 linked
  constructor
  · have isLast := List.getLast?_eq_some_getLast (List.cons_ne_nil head xs)
    rw [isLast, (joined _ isLast x rfl).2]
  · obtain ⟨b, rest, split⟩ := List.exists_cons_of_ne_nil (List.append_ne_nil_of_right_ne_nil ys (List.cons_ne_nil head []))
    rw [split] at right ⊢
    rw [(List.isChain_cons_cons.1 right).1.1]
    rfl

theorem next_mem (ring : Ring next prev head nodes) (member : x ∈ nodes) : next x ∈ head :: nodes := by
  obtain ⟨xs, ys, rfl⟩ := List.append_of_mem member
  have isNext := List.mem_of_head? ring.neighbours.2
  simp only [List.mem_append, List.mem_cons, List.not_mem_nil, or_false] at isNext ⊢
  tauto

theorem prev_mem (ring : Ring next prev head nodes) (member : x ∈ nodes) : prev x ∈ head :: nodes := by
  obtain ⟨xs, ys, rfl⟩ := List.append_of_mem member
  have isPrev := List.mem_of_getLast? ring.neighbours.1
  simp only [List.mem_append, List.mem_cons] at isPrev ⊢
  tauto

theorem first_mem (ring : Ring next prev head nodes) : next head ∈ head :: nodes := by
  cases nodes with
  | nil =>
    rw [(List.isChain_cons_cons.1 ring.linked).1.1]
    exact List.mem_cons_self
  | cons x rest =>
    rw [(List.isChain_cons_cons.1 ring.linked).1.1]
    exact List.mem_cons_of_mem head List.mem_cons_self

variable [DecidableEq ι]

/-- A node is linked behind the head. -/
theorem push (ring : Ring next prev head nodes) (apart : x ∉ head :: nodes) :
    Ring (Function.update (Function.update next x (next head)) head x)
      (Function.update (Function.update prev x head) (next head) x) head (x :: nodes) := by
  obtain ⟨nodup, linked⟩ := ring
  have headNotIn := (List.nodup_cons.1 nodup).1
  have xNotHead : x ≠ head := fun same => apart (same ▸ List.mem_cons_self)
  have xNotIn : x ∉ nodes := fun member => apart (List.mem_cons_of_mem _ member)
  refine ⟨?_, ?_⟩
  · refine List.nodup_cons.2 ⟨fun member => ?_, List.nodup_cons.2 ⟨xNotIn, (List.nodup_cons.1 nodup).2⟩⟩
    exact (List.mem_cons.1 member).elim (fun same => xNotHead same.symm) headNotIn
  obtain ⟨first, rest, split⟩ : ∃ first rest, nodes ++ [head] = first :: rest := List.exists_cons_of_ne_nil (by simp)
  have allNodup : (nodes ++ [head]).Nodup := List.nodup_append_comm.1 nodup
  have xNotFirst : x ≠ first := by
    rintro rfl
    have member : x ∈ nodes ++ [head] := split ▸ List.mem_cons_self
    simp [xNotHead, xNotIn] at member
  rw [List.cons_append, split]
  rw [split] at linked allNodup
  obtain ⟨⟨isFirst, isPrev⟩, tail⟩ := List.isChain_cons_cons.1 linked
  rw [isFirst]
  refine List.isChain_cons_cons.2 ⟨⟨?_, ?_⟩, List.isChain_cons_cons.2 ⟨⟨?_, ?_⟩, DoublyLinked.congr tail (fun a member => ?_) fun b member => ?_⟩⟩
  · exact Function.update_self ..
  · rw [Function.update_of_ne xNotFirst, Function.update_self]
  · rw [Function.update_of_ne xNotHead, Function.update_self]
  · exact Function.update_self ..
  · have inNodes : a ∈ nodes := by
      rw [← split, List.dropLast_concat] at member
      exact member
    have notHead : a ≠ head := fun same => headNotIn (same ▸ inNodes)
    have notX : a ≠ x := fun same => xNotIn (same ▸ inNodes)
    rw [Function.update_of_ne notHead, Function.update_of_ne notX]
  · have notFirst : b ≠ first := fun same => (List.nodup_cons.1 allNodup).1 (same ▸ member)
    have notX : b ≠ x := by
      rintro rfl
      have inAll : b ∈ nodes ++ [head] := split ▸ List.mem_cons_of_mem _ member
      simp [xNotHead, xNotIn] at inAll
    rw [Function.update_of_ne notFirst, Function.update_of_ne notX]

/-- A node is taken out of the ring. -/
theorem unlink (ring : Ring next prev head nodes) (member : x ∈ nodes) :
    Ring (Function.update next (prev x) (next x)) (Function.update prev (next x) (prev x)) head (nodes.erase x) := by
  obtain ⟨xs, ys, rfl⟩ := List.append_of_mem member
  obtain ⟨isPrev, isNext⟩ := ring.neighbours
  obtain ⟨nodup, linked⟩ := ring
  have notBefore : x ∉ xs := fun before => by
    have disjoint := (List.nodup_append'.1 (List.nodup_cons.1 nodup).2).2.2
    exact disjoint before List.mem_cons_self
  rw [List.erase_append_right _ notBefore, List.erase_cons_head]
  have rest : (head :: (xs ++ ys)).Nodup := by
    refine nodup.sublist ((List.Sublist.append_left (List.sublist_cons_self x ys) xs).cons_cons head)
  refine ⟨rest, ?_⟩
  rw [List.append_assoc, List.cons_append, ← List.cons_append] at linked
  obtain ⟨left, right, -⟩ := List.isChain_append.1 linked
  have after : DoublyLinked next prev (ys ++ [head]) := right.tail
  have leftNodup : (head :: xs).Nodup := rest.sublist ((List.sublist_append_left xs ys).cons_cons head)
  have apart : ∀ {a}, a ∈ head :: xs → a ∉ ys := by
    intro a inLeft inRight
    exact (List.nodup_append'.1 (by rw [← List.cons_append] at rest; exact rest)).2.2 inLeft inRight
  have rightNodup : (ys ++ [head]).Nodup := by
    refine List.nodup_append'.2 ⟨(List.nodup_append'.1 (List.nodup_cons.1 rest).2).2.1, List.nodup_singleton _, ?_⟩
    intro a inRight isHead
    exact apart (List.mem_singleton.1 isHead ▸ List.mem_cons_self) inRight
  obtain ⟨left', splitLeft⟩ : ∃ left', head :: xs = left' ++ [prev x] := List.getLast?_eq_some_iff.1 isPrev
  obtain ⟨right', splitRight⟩ : ∃ right', ys ++ [head] = next x :: right' := List.head?_eq_some_iff.1 isNext
  have prevIn : prev x ∈ head :: xs := splitLeft ▸ List.mem_append_right _ (List.mem_singleton_self _)
  have nextIn : next x ∈ ys ++ [head] := splitRight ▸ List.mem_cons_self
  rw [List.append_assoc, ← List.cons_append]
  refine List.isChain_append.2 ⟨DoublyLinked.congr left (fun a isLeft => ?_) fun b isLeft => ?_,
    DoublyLinked.congr after (fun a isRight => ?_) fun b isRight => ?_, fun a isLast b isFirst => ?_⟩
  · refine Function.update_of_ne (fun same => ?_) ..
    rw [splitLeft, List.dropLast_concat, same] at isLeft
    rw [splitLeft] at leftNodup
    exact (List.nodup_append'.1 leftNodup).2.2 isLeft (List.mem_singleton_self _)
  · refine Function.update_of_ne (fun same => ?_) ..
    rw [List.tail_cons, same] at isLeft
    obtain inRight | isHead := List.mem_append.1 nextIn
    · exact apart (List.mem_cons_of_mem _ isLeft) inRight
    · exact (List.nodup_cons.1 leftNodup).1 (List.mem_singleton.1 isHead ▸ isLeft)
  · refine Function.update_of_ne (fun same => ?_) ..
    rw [List.dropLast_concat, same] at isRight
    exact apart prevIn isRight
  · refine Function.update_of_ne (fun same => ?_) ..
    rw [splitRight, List.tail_cons, same] at isRight
    rw [splitRight] at rightNodup
    exact (List.nodup_cons.1 rightNodup).1 isRight
  · obtain rfl := Option.some.inj (isLast.symm.trans isPrev)
    obtain rfl := Option.some.inj (isFirst.symm.trans isNext)
    exact ⟨Function.update_self .., Function.update_self ..⟩

end Ring

end Gafq.Base
