import Mathlib

/-! # Lists threaded through cells

A list whose links are stored in its own cells: `next a` is the pointer in the cell `a`, `ptr a` is the
pointer to it, and `null` ends a list.  Several lists that share no cell are described by the multiset of
their heads and the multiset of the cells they use together, so that a cell that occurs once in it is on
one list and at one place of it.
-/

namespace Gafq.Base

variable {α β : Type} {null : β} {ptr : α → β} {next next' : α → β} {head head' : β} {cells cells' : List α}

/-- The cells met when the links are followed from `head` to the end. -/
inductive Threaded (null : β) (ptr next : α → β) : β → List α → Prop
  | nil : Threaded null ptr next null []
  | cons {a : α} {cells : List α} (rest : Threaded null ptr next (next a) cells) : Threaded null ptr next (ptr a) (a :: cells)

namespace Threaded

theorem congr (thread : Threaded null ptr next head cells) (same : ∀ a ∈ cells, next' a = next a) :
    Threaded null ptr next' head cells := by
  induction thread with
  | nil => exact .nil
  | @cons a cells _ inductionHypothesis =>
    refine .cons ?_
    rw [same a List.mem_cons_self]
    exact inductionHypothesis fun b member => same b (List.mem_cons_of_mem _ member)

theorem head_null (thread : Threaded null ptr next null cells) (notNull : ∀ a, ptr a ≠ null) : cells = [] := by
  generalize isNull : null = head at thread
  cases thread with
  | nil => rfl
  | cons => exact absurd isNull.symm (notNull _)

theorem of_ptr {a : α} (thread : Threaded null ptr next (ptr a) cells) (injective : Function.Injective ptr)
    (notNull : ∀ a, ptr a ≠ null) : ∃ rest, cells = a :: rest ∧ Threaded null ptr next (next a) rest := by
  generalize isPtr : ptr a = head at thread
  cases thread with
  | nil => exact absurd isPtr (notNull a)
  | cons rest =>
    cases injective isPtr
    exact ⟨_, rfl, rest⟩

/-- A list that does not begin with `null` has a last cell. -/
theorem exists_last (thread : Threaded null ptr next head cells) (notNull : head ≠ null) : ∃ front last, cells = front ++ [last] := by
  obtain rfl | ⟨front, last, isConcat⟩ := List.eq_nil_or_concat cells
  · cases thread
    exact absurd rfl notNull
  · exact ⟨front, last, by simpa using isConcat⟩

/-- The links determine the cells of a list. -/
theorem unique (thread : Threaded null ptr next head cells) (thread' : Threaded null ptr next head cells')
    (injective : Function.Injective ptr) (notNull : ∀ a, ptr a ≠ null) : cells = cells' := by
  induction thread generalizing cells' with
  | nil => exact (thread'.head_null notNull).symm
  | cons _ inductionHypothesis =>
    obtain ⟨rest, rfl, thread''⟩ := thread'.of_ptr injective notNull
    rw [inductionHypothesis thread'']

/-- The last cell of one list gets the pointer to another one. -/
theorem link {front : List α} {a : α} (thread : Threaded null ptr next head (front ++ [a]))
    (thread' : Threaded null ptr next head' cells) (linked : next' a = head')
    (others : ∀ b ∈ front ++ cells, next' b = next b) : Threaded null ptr next' head (front ++ a :: cells) := by
  have rest : Threaded null ptr next' head' cells := thread'.congr fun b member => others b (List.mem_append_right _ member)
  induction front generalizing head with
  | nil =>
    cases thread
    exact .cons (linked ▸ rest)
  | cons b front inductionHypothesis =>
    cases thread with
    | cons thread =>
      refine .cons ?_
      rw [others b List.mem_cons_self]
      exact inductionHypothesis thread fun c member => others c (List.mem_cons_of_mem _ member)

end Threaded

/-- Lists with the heads `heads` that use the cells `cells`. -/
def AllThreaded (null : β) (ptr next : α → β) (heads : Multiset β) (cells : Multiset α) : Prop :=
  ∃ lists : Multiset (β × List α), (∀ l ∈ lists, Threaded null ptr next l.1 l.2) ∧ lists.map Prod.fst = heads ∧
    (lists.map fun l => (l.2 : Multiset α)).sum = cells

namespace AllThreaded

variable {heads : Multiset β} {used : Multiset α}

theorem zero : AllThreaded null ptr next 0 0 := ⟨0, by simp, rfl, rfl⟩

theorem cons (thread : Threaded null ptr next head cells) (threads : AllThreaded null ptr next heads used) :
    AllThreaded null ptr next (head ::ₘ heads) (cells + used) := by
  obtain ⟨lists, all, rfl, rfl⟩ := threads
  refine ⟨(head, cells) ::ₘ lists, fun l member => ?_, by simp, by simp⟩
  obtain rfl | member := Multiset.mem_cons.1 member
  · exact thread
  · exact all l member

theorem add {heads' : Multiset β} {used' : Multiset α} (threads : AllThreaded null ptr next heads used)
    (threads' : AllThreaded null ptr next heads' used') : AllThreaded null ptr next (heads + heads') (used + used') := by
  obtain ⟨lists, all, rfl, rfl⟩ := threads
  obtain ⟨lists', all', rfl, rfl⟩ := threads'
  exact ⟨lists + lists', fun l member => (Multiset.mem_add.1 member).elim (all l) (all' l), by simp, by simp⟩

theorem of_cons (threads : AllThreaded null ptr next (head ::ₘ heads) used) :
    ∃ (cells : List α) (rest : Multiset α), Threaded null ptr next head cells ∧ AllThreaded null ptr next heads rest ∧
      used = cells + rest := by
  obtain ⟨lists, all, isHeads, rfl⟩ := threads
  have isHead : head ∈ lists.map Prod.fst := isHeads ▸ Multiset.mem_cons_self head heads
  obtain ⟨l, member, rfl⟩ := Multiset.mem_map.1 isHead
  obtain ⟨lists, rfl⟩ := Multiset.exists_cons_of_mem member
  rw [Multiset.map_cons, Multiset.cons_inj_right] at isHeads
  refine ⟨l.2, _, all l member, ⟨lists, fun l' member' => all l' (Multiset.mem_cons_of_mem member'), isHeads, rfl⟩, ?_⟩
  simp

theorem congr (threads : AllThreaded null ptr next heads used) (same : ∀ a ∈ used, next' a = next a) :
    AllThreaded null ptr next' heads used := by
  obtain ⟨lists, all, rfl, rfl⟩ := threads
  refine ⟨lists, fun l member => (all l member).congr fun a inCells => same a ?_, rfl, rfl⟩
  exact Multiset.mem_of_le (Multiset.le_sum_of_mem (Multiset.mem_map_of_mem _ member)) inCells

/-- The empty list uses no cell. -/
theorem cons_null_iff (notNull : ∀ a, ptr a ≠ null) :
    AllThreaded null ptr next (null ::ₘ heads) used ↔ AllThreaded null ptr next heads used := by
  constructor
  · intro threads
    obtain ⟨cells, rest, thread, others, rfl⟩ := threads.of_cons
    rw [thread.head_null notNull]
    simpa using others
  · intro threads
    simpa using threads.cons .nil

/-- Empty lists use no cell. -/
theorem of_null (notNull : ∀ a, ptr a ≠ null) (threads : AllThreaded null ptr next heads used) (all : ∀ h ∈ heads, h = null) : used = 0 := by
  induction heads using Multiset.induction generalizing used with
  | empty =>
    obtain ⟨lists, -, none, rfl⟩ := threads
    rw [Multiset.map_eq_zero.1 none, Multiset.map_zero, Multiset.sum_zero]
  | cons h heads inductionHypothesis =>
    rw [all h (Multiset.mem_cons_self h heads), cons_null_iff notNull] at threads
    exact inductionHypothesis threads fun h member => all h (Multiset.mem_cons_of_mem member)

end AllThreaded

end Gafq.Base
