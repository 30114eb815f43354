import Mathlib

/-! # Singly linked chains

Positions joined by a partial function `next`.  The chains are finite and disjoint: following the
links always comes to an end, and no position is the successor of two others.  Two operations are
studied, which together are all that an incremental hash table with collision chains needs: linking
a free position behind another one, and letting a free position take another one's place.
-/

namespace Gafq.Base

variable {α : Type} {next : α → Option α}

/-- The positions met when the links are followed from `i` to the end. -/
inductive Chain (next : α → Option α) : α → List α → Prop
  | last {i : α} (ends : next i = none) : Chain next i [i]
  | link {i j : α} {path : List α} (step : next i = some j) (rest : Chain next j path) : Chain next i (i :: path)

/-- `j` is met when the links are followed from `i`. -/
abbrev Reaches (next : α → Option α) : α → α → Prop := Relation.ReflTransGen fun i j => next i = some j

namespace Chain

theorem unique {i : α} {path path' : List α} (first : Chain next i path) (second : Chain next i path') :
    path = path' := by
  induction first generalizing path' with
  | last ends =>
    cases second with
    | last => rfl
    | link step => rw [ends] at step; cases step
  | link step _ inductionHypothesis =>
    cases second with
    | last ends => rw [ends] at step; cases step
    | link step' rest' =>
      rw [step] at step'
      cases step'
      rw [inductionHypothesis rest']

/-- From every position of a chain a part of that chain starts. -/
theorem tail_of_mem {i j : α} {path : List α} (chain : Chain next i path) (member : j ∈ path) :
    ∃ path', Chain next j path' ∧ path'.length ≤ path.length := by
  induction chain with
  | last ends =>
    rw [List.mem_singleton] at member
    subst member
    exact ⟨_, .last ends, le_refl _⟩
  | link step rest inductionHypothesis =>
    cases member with
    | head => exact ⟨_, .link step rest, le_refl _⟩
    | tail _ member =>
      obtain ⟨path', chain', shorter⟩ := inductionHypothesis member
      exact ⟨path', chain', Nat.le_succ_of_le shorter⟩

theorem nodup {i : α} {path : List α} (chain : Chain next i path) : path.Nodup := by
  induction chain with
  | last => exact List.nodup_singleton _
  | link step rest inductionHypothesis =>
    refine List.nodup_cons.2 ⟨fun member => ?_, inductionHypothesis⟩
    -- a chain that came back to its start would be a proper part of itself
    obtain ⟨path', chain', shorter⟩ := rest.tail_of_mem member
    have same := chain'.unique (.link step rest)
    rw [same, List.length_cons] at shorter
    omega

theorem mem_iff_reaches {i j : α} {path : List α} (chain : Chain next i path) : j ∈ path ↔ Reaches next i j := by
  induction chain with
  | last ends =>
    rw [List.mem_singleton]
    constructor
    · rintro rfl
      exact .refl
    · intro reaches
      cases reaches.cases_head with
      | inl same => exact same.symm
      | inr step =>
        obtain ⟨_, step, -⟩ := step
        rw [ends] at step
        cases step
  | link step rest inductionHypothesis =>
    rw [List.mem_cons, inductionHypothesis]
    constructor
    · rintro (rfl | reaches)
      · exact .refl
      · exact .head step reaches
    · intro reaches
      cases reaches.cases_head with
      | inl same => exact .inl same.symm
      | inr step' =>
        obtain ⟨_, step', reaches⟩ := step'
        rw [step] at step'
        cases step'
        exact .inr reaches

/-- Chains among finitely many positions are short. -/
theorem length_le {i : α} {path positions : List α} (chain : Chain next i path)
    (within : ∀ j ∈ path, j ∈ positions) : path.length ≤ positions.length :=
  (chain.nodup.subperm within).length_le

end Chain

/-- Follow the links for at most `fuel` positions and return the first one that passes the test. -/
def walk (next : α → Option α) (test : α → Bool) : Nat → α → Option α
  | 0, _ => none
  | fuel + 1, i =>
    if test i then some i
    else
      match next i with
      | none => none
      | some j => walk next test fuel j

theorem walk_eq_find {i : α} {path : List α} (chain : Chain next i path) (test : α → Bool) {fuel : Nat}
    (enough : path.length ≤ fuel) : walk next test fuel i = path.find? test := by
  induction chain generalizing fuel with
  | last ends =>
    cases fuel with
    | zero => simp at enough
    | succ fuel =>
      unfold walk
      rw [List.find?_cons]
      cases test _ <;> simp [ends]
  | link step rest inductionHypothesis =>
    cases fuel with
    | zero => simp at enough
    | succ fuel =>
      unfold walk
      rw [List.find?_cons]
      cases test _ with
      | true => rfl
      | false => simpa [step] using inductionHypothesis (by simpa using enough)

/-- What a walk returns passes the test. -/
theorem walk_test {test : α → Bool} {fuel : Nat} {i j : α} (found : walk next test fuel i = some j) : test j = true := by
  induction fuel generalizing i with
  | zero => cases found
  | succ fuel inductionHypothesis =>
    unfold walk at found
    split at found
    · rename_i passes
      cases found
      exact passes
    · split at found
      · cases found
      · exact inductionHypothesis found

/-- The first position of a chain that passes a test is before all others that do. -/
theorem Chain.find_reaches {i j k : α} {path : List α} {test : α → Bool} (chain : Chain next i path)
    (first : path.find? test = some j) (member : k ∈ path) (passes : test k = true) : Reaches next j k := by
  induction chain with
  | last =>
    rw [List.mem_singleton] at member
    subst member
    simp only [List.find?_cons, passes, Option.some.injEq] at first
    exact first ▸ .refl
  | link step rest inductionHypothesis =>
    rename_i i _ _
    by_cases here : test i = true
    · simp only [List.find?_cons, here, Option.some.injEq] at first
      subst first
      exact (Chain.link step rest).mem_iff_reaches.1 member
    · have other : k ≠ i := by
        rintro rfl
        exact here passes
      simp only [List.find?_cons, here] at first
      exact inductionHypothesis first ((List.mem_cons.1 member).resolve_left other)

/-- All chains are finite, and they are disjoint. -/
structure Linked (next : α → Option α) : Prop where
  ends : ∀ i, ∃ path, Chain next i path
  single : ∀ {a b c}, next a = some c → next b = some c → a = b

/-- A position in no chain. -/
structure Isolated (next : α → Option α) (n : α) : Prop where
  no_next : next n = none
  no_pred : ∀ a, next a ≠ some n

theorem Linked.next_ne_self (linked : Linked next) {i : α} (loop : next i = some i) : False := by
  obtain ⟨path, chain⟩ := linked.ends i
  cases chain with
  | last ends => rw [ends] at loop; cases loop
  | link step rest =>
    rw [loop] at step
    cases step
    have := rest.unique (.link loop rest)
    exact absurd (congrArg List.length this) (by simp)

/-- Chains do not come back. -/
theorem Linked.antisymm (linked : Linked next) {i j : α} (forth : Reaches next i j) (back : Reaches next j i) :
    i = j := by
  obtain ⟨path, chain⟩ := linked.ends i
  cases chain with
  | last ends =>
    cases forth.cases_head with
    | inl same => exact same
    | inr step =>
      obtain ⟨_, step, -⟩ := step
      rw [ends] at step
      cases step
  | link step rest =>
    cases forth.cases_head with
    | inl same => exact same
    | inr step' =>
      obtain ⟨_, step', reaches⟩ := step'
      rw [step] at step'
      cases step'
      -- `i` is on the chain behind itself
      have again := rest.mem_iff_reaches.2 (reaches.trans back)
      exact absurd again (List.nodup_cons.1 (Chain.link step rest).nodup).1

theorem Linked.empty : Linked fun _ : α => (none : Option α) where
  ends i := ⟨[i], .last rfl⟩
  single h := by cases h

theorem Isolated.not_reached {n x : α} (isolated : Isolated next n) (reaches : Reaches next x n) : x = n := by
  cases reaches.cases_tail with
  | inl same => exact same.symm
  | inr step =>
    obtain ⟨a, -, step⟩ := step
    exact (isolated.no_pred a step).elim

section Operations

variable [DecidableEq α]

/-- Link the free position `n` behind `a`. -/
def insertAfter (next : α → Option α) (a n : α) : α → Option α :=
  Function.update (Function.update next n (next a)) a (some n)

/-- Let the free position `n` take the place of `m`, whose predecessor is `prev`; `m` becomes free. -/
def replaceLink (next : α → Option α) (prev m n : α) : α → Option α :=
  Function.update (Function.update (Function.update next n (next m)) prev (some n)) m none

section Insert

variable {a n : α}

theorem insertAfter_self : insertAfter next a n a = some n := by simp [insertAfter]

theorem insertAfter_new (distinct : a ≠ n) : insertAfter next a n n = next a := by
  simp [insertAfter, Function.update_of_ne distinct.symm]

theorem insertAfter_of_ne {i : α} (notA : i ≠ a) (notN : i ≠ n) : insertAfter next a n i = next i := by
  simp [insertAfter, notA, notN]

theorem reaches_insertAfter (isolated : Isolated next n) (distinct : a ≠ n) {x y : α} (reaches : Reaches next x y) :
    Reaches (insertAfter next a n) x y := by
  induction reaches with
  | refl => exact .refl
  | tail _ step inductionHypothesis =>
    rename_i b c _
    by_cases behind : b = a
    · subst behind
      exact (inductionHypothesis.tail insertAfter_self).tail ((insertAfter_new distinct).trans step)
    · have notN : b ≠ n := by
        rintro rfl
        rw [isolated.no_next] at step
        cases step
      exact inductionHypothesis.tail ((insertAfter_of_ne behind notN).trans step)

theorem chain_insertAfter (isolated : Isolated next n) (distinct : a ≠ n) {i : α} {path : List α}
    (chain : Chain next i path) (notN : i ≠ n) : ∃ path', Chain (insertAfter next a n) i path' := by
  induction chain with
  | last ends =>
    rename_i i
    by_cases behind : i = a
    · subst behind
      exact ⟨_, .link insertAfter_self (.last ((insertAfter_new distinct).trans ends))⟩
    · exact ⟨_, .last ((insertAfter_of_ne behind notN).trans ends)⟩
  | link step rest inductionHypothesis =>
    rename_i i j path
    have notN' : j ≠ n := by
      rintro rfl
      exact isolated.no_pred _ step
    obtain ⟨path', chain'⟩ := inductionHypothesis notN'
    by_cases behind : i = a
    · subst behind
      exact ⟨_, .link insertAfter_self (.link ((insertAfter_new distinct).trans step) chain')⟩
    · exact ⟨_, .link ((insertAfter_of_ne behind notN).trans step) chain'⟩

theorem Linked.insertAfter (linked : Linked next) (isolated : Isolated next n) (distinct : a ≠ n) :
    Linked (insertAfter next a n) where
  ends i := by
    by_cases new : i = n
    · subst new
      -- the new position continues with the old successor of `a`
      cases after : next a with
      | none => exact ⟨_, .last ((insertAfter_new distinct).trans after)⟩
      | some j =>
        have notN : j ≠ i := by
          rintro rfl
          exact isolated.no_pred _ after
        obtain ⟨path, chain⟩ := linked.ends j
        obtain ⟨path', chain'⟩ := chain_insertAfter isolated distinct chain notN
        exact ⟨_, .link ((insertAfter_new distinct).trans after) chain'⟩
    · obtain ⟨path, chain⟩ := linked.ends i
      exact chain_insertAfter isolated distinct chain new
  single {x y c} first second := by
    have single := @linked.single
    have free := isolated.no_pred
    have last := isolated.no_next
    simp only [Base.insertAfter, Function.update_apply] at first second
    grind

end Insert

section Replace

variable {prev m n : α}

theorem replaceLink_old : replaceLink next prev m n m = none := by simp [replaceLink]

/-- Behind the renaming of `m` to `n` the links are the old ones. -/
theorem replaceLink_rename (linked : Linked next) (isolated : Isolated next n) (step : next prev = some m)
    (distinct : m ≠ n) {i : α} (notN : i ≠ n) :
    replaceLink next prev m n (if i = m then n else i) = (next i).map fun j => if j = m then n else j := by
  have notSelf : prev ≠ m := by
    rintro rfl
    exact linked.next_ne_self step
  have notPrev : prev ≠ n := by
    rintro rfl
    rw [isolated.no_next] at step
    cases step
  by_cases moved : i = m
  · subst moved
    have target : next i ≠ some i := fun loop => linked.next_ne_self loop
    simp only [if_true, replaceLink, Function.update_apply, distinct.symm, notPrev.symm, if_false]
    cases after : next i with
    | none => rfl
    | some j =>
      have : j ≠ i := by
        rintro rfl
        exact target after
      simp [this]
  · simp only [moved, if_false, replaceLink, Function.update_apply]
    by_cases behind : i = prev
    · subst behind
      simp [step]
    · have target : next i ≠ some m := fun also => behind (linked.single also step)
      simp only [behind, if_false, notN]
      cases after : next i with
      | none => rfl
      | some j =>
        have : j ≠ m := by
          rintro rfl
          exact target after
        simp [this]

theorem reaches_replaceLink (linked : Linked next) (isolated : Isolated next n) (step : next prev = some m)
    (distinct : m ≠ n) {x y : α} (reaches : Reaches next x y) (notN : x ≠ n) :
    Reaches (replaceLink next prev m n) (if x = m then n else x) (if y = m then n else y) := by
  induction reaches with
  | refl => exact .refl
  | tail before link inductionHypothesis =>
    rename_i b c
    have notB : b ≠ n := fun same => notN (isolated.not_reached (same ▸ before))
    refine inductionHypothesis.tail ?_
    rw [replaceLink_rename linked isolated step distinct notB, link]
    rfl

theorem chain_replaceLink (linked : Linked next) (isolated : Isolated next n) (step : next prev = some m)
    (distinct : m ≠ n) {i : α} {path : List α} (chain : Chain next i path) (notN : i ≠ n) :
    ∃ path', Chain (replaceLink next prev m n) (if i = m then n else i) path' := by
  induction chain with
  | last ends =>
    refine ⟨_, .last ?_⟩
    rw [replaceLink_rename linked isolated step distinct notN, ends]
    rfl
  | link link rest inductionHypothesis =>
    rename_i i j path
    have notN' : j ≠ n := by
      rintro rfl
      exact isolated.no_pred _ link
    obtain ⟨path', chain'⟩ := inductionHypothesis notN'
    refine ⟨_, .link ?_ chain'⟩
    rw [replaceLink_rename linked isolated step distinct notN, link]
    rfl

theorem Linked.replaceLink (linked : Linked next) (isolated : Isolated next n) (step : next prev = some m)
    (distinct : m ≠ n) : Linked (replaceLink next prev m n) where
  ends i := by
    by_cases old : i = m
    · exact ⟨[i], .last (old ▸ replaceLink_old)⟩
    · by_cases new : i = n
      · obtain ⟨path, chain⟩ := linked.ends m
        have moved := chain_replaceLink linked isolated step distinct chain distinct
        rw [if_pos rfl] at moved
        rwa [new]
      · obtain ⟨path, chain⟩ := linked.ends i
        have kept := chain_replaceLink linked isolated step distinct chain new
        rwa [if_neg old] at kept
  single {x y c} first second := by
    have single := @linked.single
    have free := isolated.no_pred
    have last := isolated.no_next
    simp only [Base.replaceLink, Function.update_apply] at first second
    grind

end Replace

end Operations

end Gafq.Base
