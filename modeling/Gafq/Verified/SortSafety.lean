import Gafq.Verified.Sorting

/-! # What `table.sort` does under any comparison

Nothing is assumed about the answers of the comparison: they are a sequence.  A scan tests the bounds of its
range only after it has passed an element.  Two answers matter.  When a scan passes the last element of the
whole array going up, or the first one going down, the next element it reads lies outside the array.  When it
passes the last element of its range going up, the whole range may be left to do again.
-/

namespace Gafq.TabLib

open Base (Interaction Rearranges exchange)

variable {V α β : Type}

/-- The comparisons that have been made, with their answers. -/
abbrev Asked (V : Type) := List (Comparison V × Option Bool)

/-- A scan passes the end of the whole array. -/
def leaves (n : Int) : Comparison V × Option Bool → Bool
  | (⟨.up _ u i, _, _⟩, some true) => u = n && i = n
  | (⟨.down l _ j, _, _⟩, some true) => l = 1 && j = 1
  | _ => false

/-- A scan passes the end of its range going up. -/
def passes : Comparison V × Option Bool → Bool
  | (⟨.up _ u i, _, _⟩, some true) => u = i
  | _ => false

/-- No scan passes an end of the array. -/
def Stays (n : Int) (asked : Asked V) : Prop := ∀ entry ∈ asked, leaves n entry = false

/-- Only elements of the array have been read or written. -/
def Inside (n : Int) (s : Sorting V) : Prop := ∀ k ∈ s.keys, 1 ≤ k ∧ k ≤ n

section

variable {n l u i j : Int} {s s' s'' : Sorting V} {asked asked' : Asked V} {p : V}

@[simp] theorem Stays.nil : Stays n ([] : Asked V) := by simp [Stays]

@[simp] theorem stays_cons {entry : Comparison V × Option Bool} :
    Stays n (entry :: asked) ↔ leaves n entry = false ∧ Stays n asked := by simp [Stays]

@[simp] theorem stays_append : Stays n (asked ++ asked') ↔ Stays n asked ∧ Stays n asked' := by
  simp [Stays, or_imp, forall_and]

@[simp] theorem inside_rawgeti {k : Int} : Inside n (s.rawgeti k).2 ↔ (1 ≤ k ∧ k ≤ n) ∧ Inside n s := by
  simp [Inside, Sorting.rawgeti]

@[simp] theorem inside_set2 {v w : V} : Inside n (s.set2 i j v w) ↔ (1 ≤ j ∧ j ≤ n) ∧ (1 ≤ i ∧ i ≤ n) ∧ Inside n s := by
  simp [Inside, Sorting.set2, Sorting.rawseti]

/-! ## What a piece of the sort changes -/

/-- As long as no scan passes an end of the array, only elements of the array are used and they are only
rearranged. -/
structure Changes (n : Int) (s : Sorting V) (asked : Asked V) (s' : Sorting V) : Prop where
  keys : s.keys ⊆ s'.keys
  inside : Inside n s → (Inside n s' ↔ Stays n asked)
  values : Stays n asked → Rearranges 1 n s.a s'.a

namespace Changes

theorem refl (n : Int) (s : Sorting V) : Changes n s [] s :=
  ⟨fun _ member => member, fun inside => by simpa using inside, fun _ => .refl 1 n s.a⟩

theorem trans (first : Changes n s asked s') (second : Changes n s' asked' s'') : Changes n s (asked ++ asked') s'' := by
  refine ⟨fun _ member => second.keys (first.keys member), fun inside => ?_, fun stays => ?_⟩
  · rw [stays_append]
    constructor
    · intro inside''
      have inside' : Inside n s' := fun k member => inside'' k (second.keys member)
      exact ⟨(first.inside inside).1 inside', (second.inside inside').1 inside''⟩
    · intro ⟨stays, stays'⟩
      exact (second.inside ((first.inside inside).2 stays)).2 stays'
  · rw [stays_append] at stays
    exact (first.values stays.1).trans (second.values stays.2)

theorem read (s : Sorting V) {k : Int} (low : 1 ≤ k) (high : k ≤ n) : Changes n s [] (s.rawgeti k).2 :=
  ⟨fun _ member => List.mem_cons_of_mem _ member, fun inside => by simp [inside, low, high], fun _ => .refl 1 n s.a⟩

theorem swap (s : Sorting V) {v w : V} (first : 1 ≤ i ∧ i ≤ n) (second : 1 ≤ j ∧ j ≤ n) (atSecond : v = s.a j)
    (atFirst : w = s.a i) : Changes n s [] (s.set2 i j v w) := by
  refine ⟨fun _ member => List.mem_cons_of_mem _ (List.mem_cons_of_mem _ member), fun inside => ?_, fun _ => ?_⟩
  · simp only [inside_set2, first, second, inside, and_self, Stays.nil]
  · rw [atSecond, atFirst, set2_exchange]
    exact .exchange s.a first second

end Changes

/-- The state in which a piece of the sort ends, or raises its error. -/
def left (state : α → Sorting V) : Except (SortError × Sorting V) α → Sorting V
  | .ok x => state x
  | .error (_, s) => s

/-- What a piece of the sort changes and ensures, and what is so when the depth is too small. -/
def Runs (n : Int) (s : Sorting V) (short : Asked V → Prop) (state : α → Sorting V) (ensures : Asked V → α → Prop)
    (m : SortM V α) : Prop :=
  m.Along fun asked r => Changes n s asked (left state r) ∧
    match r with
    | .ok x => ensures asked x
    | .error (e, _) => e = .depth → short asked

namespace Runs

variable {short : Asked V → Prop} {state : α → Sorting V} {state' : β → Sorting V} {ensures ensures' : Asked V → α → Prop}
  {m : SortM V α}

theorem bind {f : α → SortM V β} {ensures' : Asked V → β → Prop} (first : Runs n s short state ensures m)
    (rest : ∀ asked x, ensures asked x →
      Runs n (state x) (fun asked' => short (asked ++ asked')) state' (fun asked' y => ensures' (asked ++ asked') y) (f x)) :
    Runs n s short state' ensures' (m >>= f) := by
  apply Interaction.Along.bind first
  · intro asked x ⟨changes, ensured⟩
    apply (rest asked x ensured).weaken
    intro asked' r ⟨changes', ensured'⟩
    exact ⟨changes.trans changes', ensured'⟩
  · intro asked e failed
    exact failed

theorem weaken (runs : Runs n s short state ensures m) (after : ∀ asked x, ensures asked x → ensures' asked x) :
    Runs n s short state ensures' m := by
  apply Interaction.Along.weaken runs
  intro asked r ⟨changes, ensured⟩
  cases r with
  | ok x => exact ⟨changes, after asked x ensured⟩
  | error e => exact ⟨changes, ensured⟩

theorem shorten {short' : Asked V → Prop} (runs : Runs n s short state ensures m) (more : ∀ asked, short asked → short' asked) :
    Runs n s short' state ensures m := by
  apply Interaction.Along.weaken runs
  intro asked r ⟨changes, ensured⟩
  cases r with
  | ok x => exact ⟨changes, ensured⟩
  | error e => exact ⟨changes, fun isDepth => more asked (ensured isDepth)⟩

/-- What is done before the first comparison. -/
theorem after (before : Changes n s [] s') (runs : Runs n s' short state ensures m) : Runs n s short state ensures m :=
  Interaction.Along.weaken runs fun _ _ ⟨changes, ensured⟩ => ⟨before.trans changes, ensured⟩

theorem done {x : α} (changes : Changes n s [] (state x)) (ensured : ensures [] x) :
    Runs n s short state ensures (.done x) := ⟨changes, ensured⟩

/-- A comparison outside the scans. -/
theorem compare {site : Site} {f : Bool → SortM V β} {ensures' : Asked V → β → Prop} {x y : V}
    (outside : site = .ends ∨ site = .low ∨ site = .high)
    (rest : ∀ entry less, Runs n s (fun asked => short (entry :: asked)) state' (fun asked r => ensures' (entry :: asked) r)
      (f less)) : Runs n s short state' ensures' (sortComp site x y s >>= f) := by
  have harmless (answer : Option Bool) : Changes n s [(⟨site, x, y⟩, answer)] s := by
    have stays : Stays n [(Comparison.mk site x y, answer)] := by
      obtain rfl | rfl | rfl := outside <;> simp [leaves]
    exact ⟨fun _ member => member, fun inside => by simp [stays, inside], fun _ => .refl 1 n s.a⟩
  intro answer
  cases answer with
  | none => exact ⟨harmless none, fun impossible => by cases impossible⟩
  | some less =>
    apply Interaction.Along.weaken (rest (⟨site, x, y⟩, some less) less)
    intro asked r ⟨changes, ensured⟩
    exact ⟨(harmless (some less)).trans changes, ensured⟩

end Runs

/-! ## Scans -/

/-- What a scan changes; at an `edge` the first element it reads is not in the array. -/
structure Scanned (n : Int) (s : Sorting V) (asked : Asked V) (edge : Prop) (s' : Sorting V) : Prop where
  keys : s.keys ⊆ s'.keys
  same : s'.a = s.a
  inside : Inside n s → (Inside n s' ↔ Stays n asked ∧ ¬ edge)

namespace Scanned

variable {edge edge' : Prop} {k : Int} {entry : Comparison V × Option Bool}

theorem stop (range : 1 ≤ k ∧ k ≤ n ↔ ¬ edge) (harmless : leaves n entry = false) :
    Scanned n s [entry] edge (s.rawgeti k).2 :=
  ⟨fun _ member => List.mem_cons_of_mem _ member, rfl, fun inside => by simp [inside, range, harmless]⟩

/-- The element is passed. -/
theorem pass (range : 1 ≤ k ∧ k ≤ n) (noEdge : ¬ edge) (next : leaves n entry = true ↔ edge')
    (scanned : Scanned n (s.rawgeti k).2 asked edge' s') : Scanned n s (entry :: asked) edge s' := by
  refine ⟨fun _ member => scanned.keys (List.mem_cons_of_mem _ member), scanned.same, fun inside => ?_⟩
  rw [scanned.inside (by simp [range, inside]), ← next]
  simp only [stays_cons, noEdge, Bool.not_eq_true, not_false_eq_true, and_true]
  exact and_comm

theorem changes (scanned : Scanned n s asked edge s') (noEdge : ¬ edge) : Changes n s asked s' := by
  refine ⟨scanned.keys, fun inside => by simp [scanned.inside inside, noEdge], fun _ => ?_⟩
  rw [scanned.same]
  exact .refl 1 n s.a

end Scanned

/-- What a scan changes and ensures; it is not cut. -/
def Scans (n : Int) (s : Sorting V) (edge : Prop) (ensures : Asked V → Int → V → Prop)
    (m : SortM V (Int × V × Sorting V)) : Prop :=
  m.Along fun asked r => Scanned n s asked edge (left (fun x => x.2.2) r) ∧
    match r with
    | .ok (i, v, _) => ensures asked i v
    | .error (e, _) => e ≠ .depth

theorem Scans.runs {edge : Prop} {short : Asked V → Prop} {ensures : Asked V → Int → V → Prop}
    {m : SortM V (Int × V × Sorting V)} (scans : Scans n s edge ensures m) (noEdge : ¬ edge) :
    Runs n s short (fun x => x.2.2) (fun asked x => ensures asked x.1 x.2.1 ∧ x.2.2.a = s.a) m := by
  apply Interaction.Along.weaken scans
  intro asked r ⟨scanned, ensured⟩
  refine ⟨scanned.changes noEdge, ?_⟩
  cases r with
  | ok x => exact ⟨ensured, scanned.same⟩
  | error e => exact fun isDepth => absurd isDepth ensured

/-- What a scan going up has reached; it is beyond the range only when it has passed its last element. -/
structure ReachedUp (l u : Int) (a : Int → V) (i : Int) (asked : Asked V) (i' : Int) (v : V) : Prop where
  low : i < i'
  high : i' ≤ u + 1
  value : v = a i'
  beyond : i' = u + 1 → i = u ∨ ∃ x y, (⟨.up l u u, x, y⟩, some true) ∈ asked

structure ReachedDown (l : Int) (a : Int → V) (j j' : Int) (v : V) : Prop where
  low : l - 1 ≤ j'
  high : j' < j
  value : v = a j'

theorem scanUp_scans (first : 1 ≤ l) (last : u ≤ n) (low : l ≤ i) (high : i ≤ u) :
    Scans n s (i = u ∧ u = n) (ReachedUp l u s.a i) (scanUp l u p i s) := by
  induction distance : (u - i).toNat generalizing i s with
  | zero =>
    obtain rfl : i = u := by omega
    rw [scanUp]
    intro answer
    cases answer with
    | none => exact ⟨.stop (by omega) rfl, by simp⟩
    | some less =>
      cases less with
      | false => exact ⟨.stop (by omega) rfl, by omega, by omega, rfl, fun _ => .inl rfl⟩
      | true =>
        have invalid : i < i + 1 := by omega
        have harmless : leaves n (Comparison.mk (.up l i (i + 1)) (s.a (i + 1)) p, some true) = false := by
          simp only [leaves, Bool.and_eq_false_iff, decide_eq_false_iff_not]
          omega
        simp only [if_true, invalid]
        exact ⟨.stop (k := i + 1) (by simp only [true_and]; omega) harmless, by simp⟩
  | succ d inductionHypothesis =>
    rw [scanUp]
    intro answer
    cases answer with
    | none => exact ⟨.stop (by omega) rfl, by simp⟩
    | some less =>
      cases less with
      | false => exact ⟨.stop (by omega) rfl, by omega, by omega, rfl, by omega⟩
      | true =>
        have valid : ¬ u < i + 1 := by omega
        simp only [if_neg valid]
        apply (@inductionHypothesis (i + 1) (s.rawgeti (i + 1)).2 (by omega) (by omega) (by omega)).weaken
        rintro asked r ⟨scanned, ensured⟩
        refine ⟨scanned.pass (by omega) (by omega) ?_, ?_⟩
        · simp only [leaves, Bool.and_eq_true, decide_eq_true_eq]
          omega
        · cases r with
          | error e => exact ensured
          | ok x =>
            obtain ⟨low', high', value, beyond⟩ := ensured
            refine ⟨by omega, high', value, fun outside => .inr ?_⟩
            obtain here | ⟨x, y, member⟩ := beyond outside
            · exact ⟨s.a (i + 1), p, by simp [← here]⟩
            · exact ⟨x, y, List.mem_cons_of_mem _ member⟩

theorem scanDown_scans (first : 1 ≤ l) (last : u ≤ n) (low : l ≤ j) (high : j ≤ u) :
    Scans n s (j = l ∧ l = 1) (fun _ => ReachedDown l s.a j) (scanDown l u p j s) := by
  induction distance : (j - l).toNat generalizing j s with
  | zero =>
    obtain rfl : j = l := by omega
    rw [scanDown]
    intro answer
    cases answer with
    | none => exact ⟨.stop (by omega) rfl, by simp⟩
    | some less =>
      cases less with
      | false => exact ⟨.stop (by omega) rfl, by omega, by omega, rfl⟩
      | true =>
        have invalid : j - 1 < j := by omega
        have harmless : leaves n (Comparison.mk (.down j u (j - 1)) p (s.a (j - 1)), some true) = false := by
          simp only [leaves, Bool.and_eq_false_iff, decide_eq_false_iff_not]
          omega
        simp only [if_true, invalid]
        exact ⟨.stop (k := j - 1) (by simp only [true_and]; omega) harmless, by simp⟩
  | succ d inductionHypothesis =>
    rw [scanDown]
    intro answer
    cases answer with
    | none => exact ⟨.stop (by omega) rfl, by simp⟩
    | some less =>
      cases less with
      | false => exact ⟨.stop (by omega) rfl, by omega, by omega, rfl⟩
      | true =>
        have valid : ¬ j - 1 < l := by omega
        simp only [if_neg valid]
        apply (@inductionHypothesis (j - 1) (s.rawgeti (j - 1)).2 (by omega) (by omega) (by omega)).weaken
        rintro asked r ⟨scanned, ensured⟩
        refine ⟨scanned.pass (by omega) (by omega) ?_, ?_⟩
        · simp only [leaves, Bool.and_eq_true, decide_eq_true_eq]
          omega
        · cases r with
          | error e => exact ensured
          | ok x =>
            obtain ⟨low', high', value⟩ := ensured
            exact ⟨low', by omega, value⟩

/-! ## Splitting -/

/-- Where the split of a range ends; at `u + 1` a scan has passed the end of the range. -/
structure SplitAt (l u : Int) (asked : Asked V) (i : Int) : Prop where
  low : l < i
  high : i ≤ u + 1
  passed : i = u + 1 → ∃ x y, (⟨.up l u u, x, y⟩, some true) ∈ asked

theorem SplitAt.mono (split : SplitAt l u asked i) (more : asked ⊆ asked') : SplitAt l u asked' i := by
  refine ⟨split.low, split.high, fun beyond => ?_⟩
  obtain ⟨x, y, member⟩ := split.passed beyond
  exact ⟨x, y, more member⟩

theorem splitLoop_runs (first : 1 ≤ l) (last : u ≤ n) (rest : Nat) (low : l ≤ i) (apart : i ≤ j) (above : l < j)
    (high : j ≤ u - 1) (enough : j - i < rest) {short : Asked V → Prop} :
    Runs n s short (fun x => x.2) (fun asked x => SplitAt l u asked x.1) (splitLoop l u p rest i j s) := by
  induction rest generalizing i j s short with
  | zero => omega
  | succ rest inductionHypothesis =>
    rw [splitLoop]
    apply ((scanUp_scans first last low (by omega)).runs (by omega)).bind
    rintro asked ⟨i', v, s₁⟩ ⟨up, same₁⟩
    apply ((scanDown_scans first last (by omega) (by omega)).runs (by omega)).bind
    rintro asked' ⟨j', w, s₂⟩ ⟨down, same₂⟩
    simp only at up down same₁ same₂ ⊢
    by_cases met : j' < i'
    · rw [if_pos met]
      apply Runs.done (.refl n s₂)
      have split : SplitAt l u asked i' := by
        refine ⟨by have := up.low; omega, up.high, fun beyond => ?_⟩
        obtain here | passed := up.beyond beyond
        · omega
        · exact passed
      exact split.mono (List.subset_append_left _ _)
    · rw [if_neg met]
      have bounds := up.low
      have bounds' := down.high
      have atSecond : w = s₂.a j' := by rw [down.value, same₂]
      have atFirst : v = s₂.a i' := by rw [up.value, same₂, same₁]
      apply Runs.after (.swap s₂ (by omega) (by omega) atSecond atFirst)
      apply (inductionHypothesis (by omega) (by omega) (by omega) (by omega) (by omega)).weaken
      intro asked'' x split
      exact (split.mono (List.subset_append_right _ _)).mono (List.subset_append_right _ _)

/-! ## A range -/

theorem sortEnds_runs (first : 1 ≤ l) (last : u ≤ n) (range : l < u) {short : Asked V → Prop} :
    Runs n s short id (fun _ _ => True) (sortEnds l u s) := by
  have reads := (Changes.read (n := n) s first (by omega)).trans
    (.read (s.rawgeti l).2 (by omega : 1 ≤ u) last)
  apply Runs.after reads
  apply Runs.compare (by simp)
  intro entry less
  cases less with
  | true => exact .done (.swap _ (by omega) (by omega) rfl rfl) trivial
  | false => exact .done (.refl n _) trivial

theorem sortMiddle_runs (first : 1 ≤ l) (last : u ≤ n) (low : l < i) (high : i < u) {short : Asked V → Prop} :
    Runs n s short id (fun _ _ => True) (sortMiddle l u i s) := by
  have reads := (Changes.read (n := n) s (by omega : 1 ≤ i) (by omega)).trans
    (.read (s.rawgeti i).2 first (by omega))
  apply Runs.after reads
  apply Runs.compare (by simp)
  intro entry less
  cases less with
  | true => exact .done (.swap _ (by omega) (by omega) rfl rfl) trivial
  | false =>
    apply Runs.after (.read _ (by omega : 1 ≤ u) last)
    apply Runs.compare (by simp)
    intro entry' less'
    cases less' with
    | true => exact .done (.swap _ (by omega) (by omega) rfl rfl) trivial
    | false => exact .done (.refl n _) trivial

/-- The pivot is written beyond the array only after a scan has passed the end of the array. -/
theorem Changes.place (first : 1 ≤ l) (last : u ≤ n) (range : l < u) (changes : Changes n s asked s')
    (split : SplitAt l u asked i) {v w : V} (atSecond : v = s'.a i) (atFirst : w = s'.a (u - 1)) :
    Changes n s asked ((((s'.rawgeti (u - 1)).2.rawgeti i).2).set2 (u - 1) i v w) := by
  have bounds := split.low
  have bounds' := split.high
  have within (stays : Stays n asked) : i ≤ n := by
    by_contra beyond
    obtain ⟨x, y, member⟩ := split.passed (by omega)
    have leaving := stays _ member
    simp only [leaves, Bool.and_eq_false_iff, decide_eq_false_iff_not] at leaving
    omega
  refine ⟨fun _ member => ?_, fun inside => ?_, fun stays => ?_⟩
  · have kept := changes.keys member
    simp [Sorting.set2, Sorting.rawseti, Sorting.rawgeti, kept]
  · rw [inside_set2, inside_rawgeti, inside_rawgeti, changes.inside inside]
    constructor
    · rintro ⟨_, _, _, _, stays⟩
      exact stays
    · intro stays
      have := within stays
      exact ⟨by omega, by omega, by omega, by omega, stays⟩
  · apply (changes.values stays).trans
    have := within stays
    rw [atSecond, atFirst]
    exact .exchange s'.a (by omega) (by omega)

theorem partitionRange_runs (first : 1 ≤ l) (last : u ≤ n) (large : l + 3 ≤ u) (low : l < i) (high : i < u)
    {short : Asked V → Prop} : Runs n s short (fun x => x.2) (fun asked x => SplitAt l u asked x.1) (partitionRange l u i s) := by
  have reads := (Changes.read (n := n) s (by omega : 1 ≤ i) (by omega)).trans
    (.read (s.rawgeti i).2 (by omega : 1 ≤ u - 1) (by omega))
  have moved := reads.trans (.swap _ (by omega : 1 ≤ i ∧ i ≤ n) (by omega : 1 ≤ u - 1 ∧ u - 1 ≤ n) rfl rfl)
  apply Runs.after moved
  have parts : Runs n ((((s.rawgeti i).2.rawgeti (u - 1)).2).set2 i (u - 1) (s.a (u - 1)) (s.a i)) short (fun x => x.2)
      (fun asked x => SplitAt l u asked x.1) (splitLoop l u (s.a i) (u - l).toNat l (u - 1) _) :=
    splitLoop_runs first last (u - l).toNat (le_refl l) (by omega) (by omega) (le_refl (u - 1)) (by omega)
  apply Interaction.Along.bind parts
  · intro asked x ⟨changes, split⟩
    have placed := changes.place first last (by omega) split rfl rfl
    rw [← List.append_nil asked] at placed split
    exact ⟨placed, split⟩
  · intro asked e failed
    exact failed

theorem SplitAt.count (split : SplitAt l u asked (u + 1)) : 0 < asked.countP passes := by
  obtain ⟨x, y, member⟩ := split.passed rfl
  exact List.countP_pos_iff.2 ⟨_, member, by simp [passes]⟩

/-- The depth is enough for all elements of the range and for every time a range is done again. -/
theorem auxsort_runs (small : n < 2 ^ 30) (depth : Nat) (first : 1 ≤ l) (last : u ≤ n) :
    Runs n s (fun asked => depth ≤ (u - l + 1).toNat + asked.countP passes) id (fun _ _ => True) (auxsort depth l u s) := by
  induction depth generalizing l u s with
  | zero => exact ⟨.refl n s, by simp⟩
  | succ depth inductionHypothesis =>
    rw [auxsort]
    by_cases range : l < u
    · rw [if_pos range]
      apply (sortEnds_runs first last range).bind
      intro asked₁ s₁ _
      by_cases two : u - l = 1
      · rw [if_pos two]
        exact .done (.refl n s₁) trivial
      rw [if_neg two]
      have position := middle_eq first (by omega) range
      apply (sortMiddle_runs first last (by omega) (by omega)).bind
      intro asked₂ s₂ _
      by_cases three : u - l = 2
      · rw [if_pos three]
        exact .done (.refl n s₂) trivial
      rw [if_neg three]
      apply (partitionRange_runs first last (by omega) (by omega) (by omega)).bind
      rintro asked₃ ⟨i, s₃⟩ split
      have bounds := split.low
      have bounds' := split.high
      -- only when the end of the range has been passed is a part as large as the range
      have part {l' u' : Int} {s' : Sorting V} (isPart : l' = l ∧ u' = i - 1 ∨ l' = i + 1 ∧ u' = u) (entries : Asked V) :
          Runs n s' (fun asked => depth + 1 ≤ (u - l + 1).toNat +
            (asked₁ ++ (asked₂ ++ (asked₃ ++ (entries ++ asked)))).countP passes) id (fun _ _ => True)
          (auxsort depth l' u' s') := by
        apply (inductionHypothesis (by omega) (by omega)).shorten
        intro asked deeper
        simp only [List.countP_append]
        by_cases beyond : i = u + 1
        · subst beyond
          have counted := split.count
          omega
        · omega
      by_cases smaller : i - l < u - i
      · simp only [if_pos smaller]
        apply (part (.inl ⟨rfl, rfl⟩) []).bind
        intro asked₄ s₄ _
        exact part (.inr ⟨rfl, rfl⟩) asked₄
      · simp only [if_neg smaller]
        apply (part (.inr ⟨rfl, rfl⟩) []).bind
        intro asked₄ s₄ _
        exact part (.inl ⟨rfl, rfl⟩) asked₄
    · rw [if_neg range]
      exact .done (.refl n s) trivial

/-! ## More depth -/

/-- The error of a program whose depth is too small. -/
def IsCut (e : SortError × Sorting V) : Prop := e.1 = .depth

theorem auxsort_extends {depth depth' : Nat} (more : depth ≤ depth') :
    Interaction.Extends IsCut (auxsort depth l u s) (auxsort depth' l u s) := by
  induction depth generalizing depth' l u s with
  | zero => exact .cut rfl
  | succ depth inductionHypothesis =>
    obtain ⟨depth', rfl⟩ : ∃ d, depth' = d + 1 := ⟨depth' - 1, by omega⟩
    have parts {l u : Int} {s : Sorting V} := @inductionHypothesis l u s depth' (by omega)
    rw [auxsort, auxsort]
    by_cases range : l < u
    · rw [if_pos range, if_pos range]
      apply Interaction.Extends.bind (.refl _)
      intro s₁
      by_cases two : u - l = 1
      · rw [if_pos two, if_pos two]
        exact .done s₁
      rw [if_neg two, if_neg two]
      apply Interaction.Extends.bind (.refl _)
      intro s₂
      by_cases three : u - l = 2
      · rw [if_pos three, if_pos three]
        exact .done s₂
      rw [if_neg three, if_neg three]
      apply Interaction.Extends.bind (.refl _)
      rintro ⟨i, s₃⟩
      by_cases smaller : i - l < u - i
      · simp only [if_pos smaller]
        exact parts.bind fun _ => parts
      · simp only [if_neg smaller]
        exact parts.bind fun _ => parts
    · rw [if_neg range, if_neg range]
      exact .done s

end

/-! ## The whole array -/

/-- Sort an array of `n` elements, where `answers` are the answers of the comparison one after another. -/
def sorted (answers : Nat → Option Bool) (n : Int) (a : Int → V) (depth : Nat) :
    Except (SortError × Sorting V) (Sorting V) × Asked V := (sort depth n a).run answers 0

/-- The sort comes to an end.  It has read and written elements of the array only, and if no error is raised
the array has the elements it had. -/
def SortsSafely (answers : Nat → Option Bool) (n : Int) (a : Int → V) : Prop :=
  ∃ depth, match (sorted answers n a depth).1 with
    | .ok s => Inside n s ∧ (Finset.Icc 1 n).val.map s.a = (Finset.Icc 1 n).val.map a
    | .error (e, s) => e ≠ .depth ∧ Inside n s

/-- No scan passes an end of the array, and the ends of ranges are passed a bounded number of times. -/
def ScansStop (answers : Nat → Option Bool) (n : Int) (a : Int → V) : Prop :=
  (∀ depth, Stays n (sorted answers n a depth).2) ∧
    ∃ bound, ∀ depth, (sorted answers n a depth).2.countP passes ≤ bound

section

variable {answers : Nat → Option Bool} {n : Int} {a : Int → V}

theorem sorted_spec (small : n < 2 ^ 30) (depth : Nat) :
    Changes n ⟨a, []⟩ (sorted answers n a depth).2 (left id (sorted answers n a depth).1) ∧
      ∀ s, (sorted answers n a depth).1 = .error (.depth, s) →
        depth ≤ n.toNat + (sorted answers n a depth).2.countP passes := by
  have ⟨changes, ensured⟩ := Interaction.Along.run (auxsort_runs (s := ⟨a, []⟩) small depth (le_refl 1) (le_refl n)) answers 0
  refine ⟨changes, fun s cut => ?_⟩
  change (Interaction.run answers 0 (auxsort depth 1 n ⟨a, []⟩)).1 = _ at cut
  rw [cut] at ensured
  have deeper := ensured rfl
  rwa [Int.sub_add_cancel] at deeper

theorem inside_iff_stays (small : n < 2 ^ 30) (depth : Nat) :
    Inside n (left id (sorted answers n a depth).1) ↔ Stays n (sorted answers n a depth).2 :=
  (sorted_spec small depth).1.inside (by simp [Inside])

/-- A sort that comes to an end with one depth does the same with every other, as far as it comes. -/
theorem sorted_begins {depth : Nat} (ends : ∀ s, (sorted answers n a depth).1 ≠ .error (.depth, s)) (depth' : Nat) :
    (sorted answers n a depth').2 <+: (sorted answers n a depth).2 := by
  obtain fewer | more := Nat.le_total depth' depth
  · obtain same | ⟨_, begins⟩ := (auxsort_extends fewer).run answers 0
    · rw [sorted, sorted, sort, sort, same]
    · exact begins
  · obtain same | ⟨⟨⟨e, s⟩, isCut, cut⟩, _⟩ := (auxsort_extends more).run answers 0
    · rw [sorted, sorted, sort, sort, same]
    · obtain rfl : e = .depth := isCut
      exact absurd cut (ends s)

theorem SortsSafely.ends (safe : SortsSafely answers n a) :
    ∃ depth, (∀ s, (sorted answers n a depth).1 ≠ .error (.depth, s)) ∧ Inside n (left id (sorted answers n a depth).1) := by
  obtain ⟨depth, safe⟩ := safe
  refine ⟨depth, ?_⟩
  split at safe
  · next s ended => simp [ended, left, safe.1]
  · next e s ended => simp [ended, left, safe.1, safe.2]

theorem SortsSafely.scansStop (small : n < 2 ^ 30) (safe : SortsSafely answers n a) : ScansStop answers n a := by
  obtain ⟨depth, ends, inside⟩ := safe.ends
  have stays := (inside_iff_stays small depth).1 inside
  constructor
  · intro depth' entry member
    exact stays entry ((sorted_begins ends depth').subset member)
  · exact ⟨_, fun depth' => (sorted_begins ends depth').sublist.countP_le⟩

/-- A comparison that never says yes stops every scan at once. -/
theorem ScansStop.of_no (no : ∀ k, answers k ≠ some true) : ScansStop answers n a := by
  have answered {depth : Nat} {entry : Comparison V × Option Bool} (asked : entry ∈ (sorted answers n a depth).2) :
      entry.2 ≠ some true := by
    obtain ⟨k, answer⟩ := Interaction.run_answered asked
    rw [answer]
    exact no k
  refine ⟨fun depth entry asked => ?_, 0, fun depth => ?_⟩
  · have noYes := answered asked
    unfold leaves
    split <;> simp_all
  · rw [Nat.le_zero, List.countP_eq_zero]
    intro entry asked
    have noYes := answered asked
    unfold passes
    split <;> simp_all

theorem ScansStop.sortsSafely (small : n < 2 ^ 30) (stop : ScansStop answers n a) : SortsSafely answers n a := by
  obtain ⟨stays, bound, bounded⟩ := stop
  refine ⟨n.toNat + bound + 1, ?_⟩
  have stays := stays (n.toNat + bound + 1)
  have bounded := bounded (n.toNat + bound + 1)
  have inside := (inside_iff_stays small _).2 stays
  obtain ⟨changes, enough⟩ := @sorted_spec V answers n a small (n.toNat + bound + 1)
  split
  · next s ended =>
    rw [ended] at inside changes
    exact ⟨inside, (changes.values stays).values⟩
  · next e s ended =>
    rw [ended] at inside
    refine ⟨?_, inside⟩
    rintro rfl
    have := enough s ended
    omega

/-- `table.sort` is safe exactly when no scan passes an end of the array and the ends of ranges are not passed
again and again. -/
theorem sort_safe_iff (small : n < 2 ^ 30) : SortsSafely answers n a ↔ ScansStop answers n a :=
  ⟨fun safe => safe.scansStop small, fun stop => stop.sortsSafely small⟩

/-- Four numbers. -/
def fourNumbers (k : Int) : Int := 5 - k

/-- The first scan passes all elements of the range, and then stops. -/
def passAll (k : Nat) : Option Bool := some (decide (3 ≤ k ∧ k ≤ 5))

theorem run_scanUp_pass {l u i : Int} {p : V} {s : Sorting V} {f : Int × V × Sorting V → SortM V β} {k : Nat}
    (pass : answers k = some true) (valid : i + 1 ≤ u) :
    ((scanUp l u p i s >>= f).run answers k).2 = (⟨.up l u (i + 1), s.a (i + 1), p⟩, some true) ::
      ((scanUp l u p (i + 1) (s.rawgeti (i + 1)).2 >>= f).run answers (k + 1)).2 := by
  rw [scanUp]
  change (_, answers k) :: ((_ >>= f).run answers (k + 1)).2 = _
  rw [pass]
  simp [Interaction.bind, Sorting.rawgeti, Int.not_lt.2 valid]

theorem sort_fourNumbers_unsafe : ¬ SortsSafely passAll 4 fourNumbers := by
  intro safe
  have stays := (safe.scansStop (by decide)).1 1
  simp [sorted, sort, auxsort, sortEnds, sortMiddle, partitionRange, Sorting.rawgeti, Sorting.set2, Sorting.rawseti, sortComp,
    Interaction.run, passAll, middle, wrapInt] at stays
  obtain ⟨_, _, _, stays⟩ := stays
  rw [splitLoop, Interaction.bind_bind, run_scanUp_pass rfl (by decide), run_scanUp_pass rfl (by decide),
    run_scanUp_pass rfl (by decide)] at stays
  simp [leaves] at stays

/-- A comparison that always says no. -/
theorem sort_safe_iff_fourNumbers :
    SortsSafely (fun _ => some false) 4 fourNumbers ∧ ScansStop (fun _ => some false) 4 fourNumbers := by
  have stop : ScansStop (fun _ => some false) 4 fourNumbers := .of_no (by simp)
  exact ⟨(sort_safe_iff (by decide)).mpr stop, stop⟩

end

end Gafq.TabLib
