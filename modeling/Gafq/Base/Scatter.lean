import Gafq.Base.Links

/-! # Chained scatter tables with Brent's variation

Keys are kept at numbered positions that are linked into chains.  Every key is on the chain that
starts at its main position, and a position that is the main position of some key holds a key that
is at home there.  Three ways of adding a key keep this: to overwrite its main position, to link a
free position behind it, and to move a stranger from it to a free position.
-/

namespace Gafq.Base

variable {K : Type}

/-- Keys with an equality that may be partial, and a main position that respects it. -/
structure Hashing (K : Type) where
  /-- marks a free position -/
  nil : K
  equal : K → K → Bool
  size : Nat
  pos : K → Nat
  equal_symm : ∀ {a b}, equal a b = true → equal b a = true
  equal_trans : ∀ {a b c}, equal a b = true → equal b c = true → equal a c = true
  pos_lt : ∀ k, pos k < size
  pos_congr : ∀ {a b}, equal a b = true → pos a = pos b

structure Scatter (H : Hashing K) (keys : Nat → K) (next : Nat → Option Nat) : Prop where
  linked : Linked next
  inside : ∀ {i j}, next i = some j → j < H.size
  free : ∀ {i}, keys i = H.nil → Isolated next i
  outside : ∀ {i}, H.size ≤ i → keys i = H.nil
  reached : ∀ {i}, keys i ≠ H.nil → Reaches next (H.pos (keys i)) i
  home_used : ∀ {i}, keys i ≠ H.nil → keys (H.pos (keys i)) ≠ H.nil
  home : ∀ {i}, keys i ≠ H.nil → H.pos (keys (H.pos (keys i))) = H.pos (keys i)
  distinct : ∀ {i j}, keys i ≠ H.nil → keys j ≠ H.nil → H.equal (keys i) (keys j) = true → i = j

/-- A key that is not in the table. -/
structure Hashing.Fresh (H : Hashing K) (keys : Nat → K) (k : K) : Prop where
  ne_nil : k ≠ H.nil
  absent : ∀ i, keys i ≠ H.nil → H.equal (keys i) k = false

namespace Scatter

variable {H : Hashing K} {keys : Nat → K} {next : Nat → Option Nat} {k : K}

theorem empty (H : Hashing K) : Scatter H (fun _ => H.nil) fun _ => none where
  linked := .empty
  inside h := by cases h
  free _ := ⟨rfl, fun _ h => by cases h⟩
  outside _ := rfl
  reached h := absurd rfl h
  home_used h := absurd rfl h
  home h := absurd rfl h
  distinct h := absurd rfl h

/-! ## Search -/

theorem chain_inside (scatter : Scatter H keys next) {i : Nat} {path : List Nat} (chain : Chain next i path)
    (start : i < H.size) : ∀ j ∈ path, j < H.size := by
  induction chain with
  | last => simpa using start
  | link step _ inductionHypothesis =>
    intro j member
    cases member with
    | head => exact start
    | tail _ member => exact inductionHypothesis (scatter.inside step) j member

/-- A walk of `size` steps visits the whole chain. -/
theorem walk_eq (scatter : Scatter H keys next) {i : Nat} (start : i < H.size) (test : Nat → Bool) :
    ∃ path, Chain next i path ∧ walk next test H.size i = path.find? test := by
  obtain ⟨path, chain⟩ := scatter.linked.ends i
  have within : ∀ j ∈ path, j ∈ List.range H.size := fun j member =>
    List.mem_range.2 (scatter.chain_inside chain start j member)
  refine ⟨path, chain, walk_eq_find chain test ?_⟩
  simpa using chain.length_le within

theorem walk_present (scatter : Scatter H keys next) {i : Nat} (used : keys i ≠ H.nil)
    (notNil : H.equal H.nil k = false) (equal : H.equal (keys i) k = true) : walk next (fun j => H.equal (keys j) k) H.size (H.pos k) = some i := by
  obtain ⟨path, chain, found⟩ := scatter.walk_eq (H.pos_lt k) fun j => H.equal (keys j) k
  have member : i ∈ path := by
    rw [chain.mem_iff_reaches, ← H.pos_congr equal]
    exact scatter.reached used
  rw [found]
  cases first : path.find? fun j => H.equal (keys j) k with
  | none => exact absurd equal (by simpa using List.find?_eq_none.1 first i member)
  | some j =>
    have also : H.equal (keys j) k = true := by simpa using List.find?_some first
    have usedJ : keys j ≠ H.nil := by
      intro free
      rw [free, notNil] at also
      cases also
    rw [scatter.distinct used usedJ (H.equal_trans equal (H.equal_symm also))]

theorem walk_absent (scatter : Scatter H keys next) (absent : ∀ i, H.equal (keys i) k = false) :
    walk next (fun j => H.equal (keys j) k) H.size (H.pos k) = none := by
  obtain ⟨path, -, found⟩ := scatter.walk_eq (H.pos_lt k) fun j => H.equal (keys j) k
  rw [found, List.find?_eq_none]
  simp [absent]

/-- A key that is not at home has a predecessor on its chain. -/
theorem walk_previous (scatter : Scatter H keys next) {m : Nat} (used : keys m ≠ H.nil)
    (stranger : H.pos (keys m) ≠ m) :
    ∃ prev, walk next (fun i => next i == some m) H.size (H.pos (keys m)) = some prev ∧ next prev = some m := by
  obtain ⟨path, chain, found⟩ := scatter.walk_eq (H.pos_lt (keys m)) fun i => next i == some m
  rw [found]
  cases (scatter.reached used).cases_tail with
  | inl same => exact absurd same.symm stranger
  | inr step =>
    obtain ⟨prev, reaches, step⟩ := step
    have member : prev ∈ path := chain.mem_iff_reaches.2 reaches
    cases first : path.find? fun i => next i == some m with
    | none => exact absurd step (by simpa using List.find?_eq_none.1 first prev member)
    | some i => exact ⟨i, rfl, by simpa using List.find?_some first⟩

/-! ## Forgetting keys -/

/-- Keys may be replaced by others on the same chains that are equal to no more keys. -/
theorem relabel (scatter : Scatter H keys next) {keys' : Nat → K} (pos : ∀ i, H.pos (keys' i) = H.pos (keys i))
    (nil : ∀ i, keys' i = H.nil ↔ keys i = H.nil)
    (equal : ∀ i j, H.equal (keys' i) (keys' j) = true → H.equal (keys i) (keys j) = true) : Scatter H keys' next where
  linked := scatter.linked
  inside := scatter.inside
  free {i} free := scatter.free ((nil i).1 free)
  outside {i} outside := (nil i).2 (scatter.outside outside)
  reached {i} used := by
    rw [pos]
    exact scatter.reached (mt (nil i).2 used)
  home_used {i} used := by
    rw [pos]
    exact mt (nil _).1 (scatter.home_used (mt (nil i).2 used))
  home {i} used := by
    simp only [pos]
    exact scatter.home (mt (nil i).2 used)
  distinct {i j} used usedJ same := scatter.distinct (mt (nil i).2 used) (mt (nil j).2 usedJ) (equal i j same)

/-! ## Adding a key -/

/-- The key overwrites what its main position holds. -/
theorem overwrite (scatter : Scatter H keys next) (fresh : H.Fresh keys k) :
    Scatter H (Function.update keys (H.pos k) k) next where
  linked := scatter.linked
  inside := scatter.inside
  free {i} free := by
    have other : i ≠ H.pos k := by
      rintro rfl
      exact fresh.ne_nil (by simpa using free)
    rw [Function.update_of_ne other] at free
    exact scatter.free free
  outside {i} outside := by
    have other : i ≠ H.pos k := fun same => absurd (H.pos_lt k) (by omega)
    rw [Function.update_of_ne other]
    exact scatter.outside outside
  reached {i} used := by
    by_cases here : i = H.pos k
    · subst here
      rw [Function.update_self]
    · rw [Function.update_of_ne here] at used ⊢
      exact scatter.reached used
  home_used {i} used := by
    by_cases there : H.pos (Function.update keys (H.pos k) k i) = H.pos k
    · rw [there, Function.update_self]
      exact fresh.ne_nil
    · rw [Function.update_of_ne there]
      by_cases here : i = H.pos k
      · subst here
        exact absurd (by rw [Function.update_self]) there
      · rw [Function.update_of_ne here] at used ⊢
        exact scatter.home_used used
  home {i} used := by
    by_cases there : H.pos (Function.update keys (H.pos k) k i) = H.pos k
    · rw [there, Function.update_self]
    · rw [Function.update_of_ne there]
      by_cases here : i = H.pos k
      · subst here
        exact absurd (by rw [Function.update_self]) there
      · rw [Function.update_of_ne here] at used ⊢
        exact scatter.home used
  distinct {i j} used usedJ equal := by
    have absent := fresh.absent
    have distinct := @scatter.distinct
    have symm := @H.equal_symm
    simp only [Function.update_apply] at used usedJ equal
    grind

/-- The key takes the free position `n`, which joins the chain behind the key at home. -/
theorem link (scatter : Scatter H keys next) (fresh : H.Fresh keys k) {n : Nat} (free : keys n = H.nil)
    (small : n < H.size) (used : keys (H.pos k) ≠ H.nil) (atHome : H.pos (keys (H.pos k)) = H.pos k) :
    Scatter H (Function.update keys n k) (insertAfter next (H.pos k) n) := by
  have isolated := scatter.free free
  have distinct : H.pos k ≠ n := by
    rintro rfl
    exact used free
  have homeNe : ∀ {i}, keys i ≠ H.nil → H.pos (keys i) ≠ n := by
    intro i usedI same
    exact scatter.home_used usedI (same ▸ free)
  constructor
  case linked => exact scatter.linked.insertAfter isolated distinct
  case inside =>
    have inside := @scatter.inside
    simp only [insertAfter, Function.update_apply]
    grind
  case free =>
    intro i freeI
    have notN : i ≠ n := by
      rintro rfl
      rw [Function.update_self] at freeI
      exact fresh.ne_nil freeI
    rw [Function.update_of_ne notN] at freeI
    have notHome : i ≠ H.pos k := by
      rintro rfl
      exact used freeI
    obtain ⟨noNext, noPred⟩ := scatter.free freeI
    refine ⟨by rw [insertAfter_of_ne notHome notN, noNext], fun a step => ?_⟩
    simp only [insertAfter, Function.update_apply] at step
    grind
  case outside =>
    intro i outside
    have notN : i ≠ n := by omega
    rw [Function.update_of_ne notN]
    exact scatter.outside outside
  case reached =>
    intro i usedI
    by_cases here : i = n
    · subst here
      rw [Function.update_self]
      exact .single insertAfter_self
    · rw [Function.update_of_ne here] at usedI ⊢
      exact reaches_insertAfter isolated distinct (scatter.reached usedI)
  case home_used =>
    intro i usedI
    by_cases here : i = n
    · subst here
      rw [Function.update_self, Function.update_of_ne distinct]
      exact used
    · rw [Function.update_of_ne here] at usedI ⊢
      rw [Function.update_of_ne (homeNe usedI)]
      exact scatter.home_used usedI
  case home =>
    intro i usedI
    by_cases here : i = n
    · subst here
      rw [Function.update_self, Function.update_of_ne distinct]
      exact atHome
    · rw [Function.update_of_ne here] at usedI ⊢
      rw [Function.update_of_ne (homeNe usedI)]
      exact scatter.home usedI
  case distinct =>
    intro i j usedI usedJ equal
    have absent := fresh.absent
    have distinct := @scatter.distinct
    have symm := @H.equal_symm
    simp only [Function.update_apply] at usedI usedJ equal
    grind

/-- The key takes its main position from a stranger, which moves to the free position `n`. -/
theorem move (scatter : Scatter H keys next) (fresh : H.Fresh keys k) {n prev : Nat} (free : keys n = H.nil)
    (small : n < H.size) (used : keys (H.pos k) ≠ H.nil) (stranger : H.pos (keys (H.pos k)) ≠ H.pos k)
    (step : next prev = some (H.pos k)) :
    Scatter H (Function.update (Function.update keys n (keys (H.pos k))) (H.pos k) k)
      (replaceLink next prev (H.pos k) n) := by
  have isolated := scatter.free free
  have distinct : H.pos k ≠ n := by
    rintro rfl
    exact used free
  -- no key lives from the position that is given up
  have homeNe : ∀ {i}, keys i ≠ H.nil → H.pos (keys i) ≠ H.pos k ∧ H.pos (keys i) ≠ n := by
    intro i usedI
    constructor
    · intro same
      have home := scatter.home usedI
      rw [same] at home
      exact stranger home
    · intro same
      exact scatter.home_used usedI (same ▸ free)
  -- where the keys are now
  have keysAt : ∀ i, Function.update (Function.update keys n (keys (H.pos k))) (H.pos k) k i =
      if i = H.pos k then k else if i = n then keys (H.pos k) else keys i := by
    intro i
    simp [Function.update_apply]
  have reachedVia : ∀ {i}, keys i ≠ H.nil →
      Reaches (replaceLink next prev (H.pos k) n) (H.pos (keys i)) (if i = H.pos k then n else i) := by
    intro i usedI
    have reaches := reaches_replaceLink scatter.linked isolated step distinct (scatter.reached usedI) (homeNe usedI).2
    rwa [if_neg (homeNe usedI).1] at reaches
  constructor
  case linked => exact scatter.linked.replaceLink isolated step distinct
  case inside =>
    have inside := @scatter.inside
    simp only [replaceLink, Function.update_apply]
    grind
  case free =>
    intro i freeI
    rw [keysAt] at freeI
    have notHome : i ≠ H.pos k := fun same => fresh.ne_nil (by simpa [same] using freeI)
    have notN : i ≠ n := fun same => used (by simpa [same, distinct.symm] using freeI)
    rw [if_neg notHome, if_neg notN] at freeI
    obtain ⟨noNext, noPred⟩ := scatter.free freeI
    constructor
    · simp only [replaceLink, Function.update_apply]
      grind
    · intro a stepA
      simp only [replaceLink, Function.update_apply] at stepA
      grind
  case outside =>
    intro i outside
    have notHome : i ≠ H.pos k := fun same => absurd (H.pos_lt k) (by omega)
    have notN : i ≠ n := by omega
    rw [keysAt, if_neg notHome, if_neg notN]
    exact scatter.outside outside
  case reached =>
    intro i usedI
    rw [keysAt] at usedI ⊢
    by_cases here : i = H.pos k
    · rw [if_pos here, ← here]
    · rw [if_neg here] at usedI ⊢
      by_cases there : i = n
      · rw [if_pos there, there]
        have reaches := reachedVia used
        rwa [if_pos rfl] at reaches
      · rw [if_neg there] at usedI ⊢
        have reaches := reachedVia usedI
        rwa [if_neg here] at reaches
  case home_used =>
    intro i usedI
    rw [keysAt i] at usedI ⊢
    by_cases here : i = H.pos k
    · rw [if_pos here, keysAt, if_pos rfl]
      exact fresh.ne_nil
    · rw [if_neg here] at usedI ⊢
      have usedOld : ∃ j, keys j ≠ H.nil ∧ (if i = n then keys (H.pos k) else keys i) = keys j := by
        by_cases there : i = n
        · exact ⟨H.pos k, used, if_pos there⟩
        · rw [if_neg there] at usedI
          exact ⟨i, usedI, if_neg there⟩
      obtain ⟨j, usedJ, same⟩ := usedOld
      rw [same, keysAt, if_neg (homeNe usedJ).1, if_neg (homeNe usedJ).2]
      exact scatter.home_used usedJ
  case home =>
    intro i usedI
    rw [keysAt i] at usedI ⊢
    by_cases here : i = H.pos k
    · rw [if_pos here, keysAt, if_pos rfl]
    · rw [if_neg here] at usedI ⊢
      have usedOld : ∃ j, keys j ≠ H.nil ∧ (if i = n then keys (H.pos k) else keys i) = keys j := by
        by_cases there : i = n
        · exact ⟨H.pos k, used, if_pos there⟩
        · rw [if_neg there] at usedI
          exact ⟨i, usedI, if_neg there⟩
      obtain ⟨j, usedJ, same⟩ := usedOld
      rw [same, keysAt, if_neg (homeNe usedJ).1, if_neg (homeNe usedJ).2]
      exact scatter.home usedJ
  case distinct =>
    intro i j usedI usedJ equal
    have absent := fresh.absent
    have distinctKeys := @scatter.distinct
    have symm := @H.equal_symm
    rw [keysAt] at usedI usedJ equal
    rw [keysAt j] at equal
    grind

end Scatter

end Gafq.Base
