import Gafq.Accounting
import Gafq.Verified.GC.FullCollections
import Gafq.Verified.GC.Separation

/-! # What the mark phase reports

`propagateall` returns the sum of what it has traversed.  Each object is traversed once, after it
was white or on the gray list, so the sum is bounded by the sizes of such objects, less those that stay
white.
-/

namespace Gafq.GC.State

variable {N : Type} {s s' s₁ : State N} {o p r : GCRef} {size q : GCRef → Nat}

/-! ## Objects get darker -/

/-- White objects turn gray or black, and those that are put on the gray list were white. -/
structure Darkens (s s' : State N) : Prop where
  objects : s'.objects = s.objects
  white : ∀ {r}, s'.iswhite r = true → s.iswhite r = true
  gray : ∃ new, s'.gray = new ++ s.gray ∧ new.Nodup ∧ ∀ o ∈ new, o.Traversable ∧ s.iswhite o = true ∧ s'.iswhite o = false

namespace Darkens

theorem refl (s : State N) : Darkens s s := ⟨rfl, id, [], rfl, List.nodup_nil, by simp⟩

theorem trans (first : Darkens s s₁) (second : Darkens s₁ s') : Darkens s s' := by
  obtain ⟨new₁, gray₁, nodup₁, fresh₁⟩ := first.gray
  obtain ⟨new₂, gray₂, nodup₂, fresh₂⟩ := second.gray
  refine ⟨second.objects.trans first.objects, fun white => first.white (second.white white), new₂ ++ new₁,
    by rw [gray₂, gray₁, List.append_assoc], nodup₂.append nodup₁ fun o member₂ member₁ => ?_, fun o member => ?_⟩
  · have white := (fresh₂ o member₂).2.1
    rw [(fresh₁ o member₁).2.2] at white
    cases white
  · cases List.mem_append.1 member with
    | inl member₂ =>
      obtain ⟨traversable, white, notWhite⟩ := fresh₂ o member₂
      exact ⟨traversable, first.white white, notWhite⟩
    | inr member₁ =>
      obtain ⟨traversable, white, notWhite⟩ := fresh₁ o member₁
      exact ⟨traversable, white, Bool.eq_false_iff.2 fun still => Bool.eq_false_iff.1 notWhite (second.white still)⟩

end Darkens

theorem Traverses.darkens (traverses : Traverses o s s') (after : s'.NonWhite o) : Darkens s s' := by
  obtain ⟨new, gray, nodup, fresh⟩ := traverses.gray
  refine ⟨by simp only [objects, rootgc, traverses.background], fun {r} white => ?_, new, gray, nodup, fun p member => ?_⟩
  · by_contra notWhite
    have self : r ≠ o := fun same => by
      rw [same, after.not_white] at white
      cases white
    have kept := traverses.kept self (Bool.eq_false_iff.2 notWhite)
    apply notWhite
    unfold iswhite at white ⊢
    rwa [kept] at white
  · obtain ⟨traversable, white, nonWhite⟩ := fresh p member
    exact ⟨traversable, white, nonWhite.not_white⟩

theorem marktmu_darkens (us : List Nat) : ∀ {s : State N}, s.Sound → (∀ u ∈ us, s.colour (.udata u) ≠ none) →
    Darkens s (us.foldl marktmudata s) := by
  induction us with
  | nil => exact fun _ _ => .refl _
  | cons u us inductionHypothesis =>
    intro s sound present
    have here := present u List.mem_cons_self
    obtain ⟨traverses, black, -⟩ := marktmudata_traverses sound.grounded here
    have after : (s.marktmudata u).colour (.udata u) ≠ none := by simp [black]
    refine (traverses.darkens (.inr black)).trans (inductionHypothesis (traverses.sound here after sound) fun v member => ?_)
    exact (traverses.allocated here after _).2 (present v (List.mem_cons_of_mem _ member))

/-! ## The weight of what is still to be traversed -/

/-- The sum over the gray list and the white objects. -/
def weight (q : GCRef → Nat) (s : State N) : Nat := (s.gray.map q).sum + ∑ r ∈ s.whites, q r

theorem mem_whites (owned : s.Owned) : r ∈ s.whites ↔ s.iswhite r = true := by
  refine ⟨fun member => (Finset.mem_filter.1 member).2, fun white => ?_⟩
  refine Finset.mem_filter.2 ⟨List.mem_toFinset.2 (owned.mem_objects ?_), white⟩
  obtain ⟨bit, colour⟩ := iswhite_iff.1 white
  simp [colour]

/-- Objects that turn black without a traversal make a difference of their own. -/
theorem Darkens.weight_le (darkens : Darkens s s') (owned : s.Owned) {blackened : Finset GCRef} (white : blackened ⊆ s.whites)
    (black : ∀ r ∈ blackened, ¬ r.Traversable ∧ s'.iswhite r = false) :
    s'.weight q + ∑ r ∈ blackened, q r ≤ s.weight q := by
  obtain ⟨new, gray, nodup, fresh⟩ := darkens.gray
  have inNew : ∀ {r}, r ∈ new.toFinset → r ∈ new := List.mem_toFinset.1
  have apart₁ : Disjoint s'.whites new.toFinset := by
    rw [Finset.disjoint_left]
    intro r isWhite isNew
    have notWhite := (fresh r (inNew isNew)).2.2
    rw [(Finset.mem_filter.1 isWhite).2] at notWhite
    cases notWhite
  have apart₂ : Disjoint (s'.whites ∪ new.toFinset) blackened := by
    rw [Finset.disjoint_left]
    intro r member isBlackened
    obtain ⟨notTraversable, notWhite⟩ := black r isBlackened
    cases Finset.mem_union.1 member with
    | inl isWhite =>
      rw [(Finset.mem_filter.1 isWhite).2] at notWhite
      cases notWhite
    | inr isNew => exact notTraversable (fresh r (inNew isNew)).1
  have subset : s'.whites ∪ new.toFinset ∪ blackened ⊆ s.whites := by
    intro r member
    obtain member | isBlackened := Finset.mem_union.1 member
    · obtain isWhite | isNew := Finset.mem_union.1 member
      · exact (mem_whites owned).2 (darkens.white (Finset.mem_filter.1 isWhite).2)
      · exact (mem_whites owned).2 (fresh r (inNew isNew)).2.1
    · exact white isBlackened
  have bound := Finset.sum_le_sum_of_subset (f := q) subset
  rw [Finset.sum_union apart₂, Finset.sum_union apart₁, List.sum_toFinset q nodup] at bound
  simp only [weight, gray, List.map_append, List.sum_append]
  omega

/-! ## `propagateall` -/

theorem bytes_fades (fades : Fades s s') (size : GCRef → Nat) (r : GCRef) : s'.bytes size r = s.bytes size r := by
  cases r with
  | table a => simp only [bytes, Table.bytes, (fades.table a).sizearray, (fades.table a).sizenode, (fades.table a).isDummy]
  | string | udata | proto | closure | upval | thread => rfl

theorem traversed_fades (fades : Fades s s') (size : GCRef → Nat) (r : GCRef) : s'.traversed size r = s.traversed size r := by
  cases r with
  | table a => simp only [traversed, Table.traversed, (fades.table a).sizearray, (fades.table a).sizenode]
  | string | udata | proto | closure | upval | thread => rfl

theorem traversed_eq (size : GCRef → Nat) (s : State N) (r : GCRef) : s.traversed size r = s.bytes size r + s.dummyBytes r := by
  cases r with
  | table a =>
    simp only [traversed, bytes, dummyBytes, Table.traversed, Table.bytes, Table.dummyBytes]
    split <;> omega
  | string | udata | proto | closure | upval | thread => rfl

/-- What is traversed comes off the weight. -/
theorem traversedBytes_le {waits : State N → GCRef → Prop} {pending : GCRef → GCRef → Prop} (stable : Stable waits)
    (fuel : Nat) : ∀ {s : State N}, s.Sound → Marking waits pending s → (∀ r, s.traversed size r = q r) →
    s.traversedBytes size fuel + (s.propagateLoop fuel).weight q ≤ s.weight q := by
  induction fuel with
  | zero => exact fun _ _ _ => by simp [traversedBytes, propagateLoop]
  | succ fuel inductionHypothesis =>
    intro s sound marking isSize
    unfold traversedBytes propagateLoop
    cases isGray : s.gray with
    | nil => simp
    | cons o rest =>
      simp only [List.isEmpty_cons, Bool.false_eq_true, if_false]
      obtain ⟨traversable, nonWhite⟩ := @Marking.listed _ _ _ _ marking o (.inl (isGray ▸ List.mem_cons_self))
      obtain ⟨traverses, -⟩ := propagatemark_spec sound.grounded isGray traversable nonWhite
      have nonWhite₀ : ({ s with gray := rest } : State N).NonWhite o := nonWhite
      have after := traverses.self nonWhite₀
      have sound₀ := sound.setGray rest
      have isSize' : ∀ r, s.propagatemark.traversed size r = q r := fun r => by
        rw [traversed_fades traverses.fades, ← isSize]
        cases r <;> rfl
      have step := (traverses.darkens after).weight_le (q := q) sound₀.owned (Finset.empty_subset _) (by simp)
      have later := inductionHypothesis (traverses.sound nonWhite₀.allocated after.allocated sound₀)
        (marking.propagatemark stable sound.grounded isGray) isSize'
      have popped : s.weight q = q o + ({ s with gray := rest } : State N).weight q := by
        have whites : ({ s with gray := rest } : State N).whites = s.whites := rfl
        simp only [weight, isGray, List.map_cons, List.sum_cons, whites]
        omega
      rw [Finset.sum_empty] at step
      rw [isSize', popped]
      omega

/-! ## Userdata that are kept for their finalizers -/

section Preserving

variable {pending : GCRef → GCRef → Prop}

theorem whites_congr (owned : s.Owned) (owned' : s'.Owned) (colour : s'.colour = s.colour) : s'.whites = s.whites := by
  ext r
  rw [mem_whites owned, mem_whites owned']
  unfold iswhite
  rw [colour]

/-- The sizes of the userdata that are put on `tmudata` and of what is traversed for them, with those
of the objects that are still white. -/
theorem preserve_bytes (remarked : Remarked pending [] s) (confined : ∀ {o r}, pending o r → ∃ u ∈ s.tmudata, o = .udata u)
    (waiting : ∀ u ∈ s.tmudata, s.colour (.udata u) ≠ none) :
    s.deadmem size + (s.separateudata false).marktmu.propagated size + ∑ r ∈ s.preserve.whites, s.traversed size r ≤
      ∑ r ∈ s.whites, s.traversed size r := by
  obtain ⟨sound, marking, stays, white⟩ := separateudata_marking remarked.sound remarked.marking
  have rootNodup := (List.nodup_append.1 remarked.sound.linked.nodup).1
  have frame := @separateudata_eq _ s false rootNodup
  have isGray : (s.separateudata false).gray = [] := by
    rw [frame]
    exact remarked.gray
  have tmudata : (s.separateudata false).tmudata = s.tmudata ++ s.selection false s.afterMain := by rw [frame]
  have colour : (s.separateudata false).colour = s.colour := by
    rw [frame]
    rfl
  have isSize : (s.separateudata false).traversed size = s.traversed size := by
    rw [frame]
    funext r
    cases r <;> rfl
  have present : ∀ u ∈ (s.separateudata false).tmudata, (s.separateudata false).colour (.udata u) ≠ none := by
    intro u member
    rw [colour]
    obtain before | isWhite := white member
    · exact waiting u before
    · obtain ⟨bit, isWhite⟩ := iswhite_iff.1 isWhite
      rw [isWhite]
      nofun
  have whites := whites_congr remarked.sound.owned sound.owned colour
  obtain ⟨sound', marking', advances, marked⟩ := marktmu_marking (s.separateudata false).tmudata sound marking
    (fun isPending => (confined isPending).imp fun _ both => ⟨stays both.1, both.2⟩) present
  have darkens : Darkens (s.separateudata false) (s.separateudata false).marktmu := marktmu_darkens _ sound present
  have isSize' : ∀ r, (s.separateudata false).marktmu.traversed size r = s.traversed size r := fun r => by
    rw [← isSize]
    exact traversed_fades advances.fades size r
  -- the userdata that have just been separated were white, and are black now
  have nodup := (List.nodup_append.1 sound.linked.nodup).2.1
  rw [tmudata, List.map_append] at nodup
  have separatedNodup := (List.nodup_append.1 nodup).2.1
  have separated : (s.separateudata false).marktmu.weight (s.traversed size) +
      ∑ r ∈ ((s.selection false s.afterMain).map GCRef.udata).toFinset, s.traversed size r ≤
        (s.separateudata false).weight (s.traversed size) := by
    apply darkens.weight_le sound.owned
    · intro r member
      obtain ⟨u, selected, rfl⟩ := List.mem_map.1 (List.mem_toFinset.1 member)
      apply (mem_whites sound.owned).2
      have candidate := (mem_selection.1 selected).2
      simp only [State.selected, State.candidate, Bool.or_false, Bool.and_eq_true] at candidate
      unfold iswhite
      rw [colour]
      exact candidate.1.1
    · intro r member
      obtain ⟨u, selected, rfl⟩ := List.mem_map.1 (List.mem_toFinset.1 member)
      exact ⟨id, (marked u (tmudata ▸ List.mem_append_right _ selected)).not_white⟩
  have deadmem : s.deadmem size = ∑ r ∈ ((s.selection false s.afterMain).map GCRef.udata).toFinset, s.traversed size r := by
    rw [List.sum_toFinset _ separatedNodup, State.deadmem, tmudata, List.drop_left, List.map_map]
    rfl
  have propagated := propagateall_spec sound' marking' (finished_stable [])
  have loop : (s.separateudata false).marktmu.propagated size + s.preserve.weight (s.traversed size) ≤
      (s.separateudata false).marktmu.weight (s.traversed size) :=
    traversedBytes_le (finished_stable []) _ sound' marking' isSize'
  have rest : s.preserve.weight (s.traversed size) = ∑ r ∈ s.preserve.whites, s.traversed size r := by
    have gray : s.preserve.gray = [] := propagated.gray
    simp [weight, gray]
  have start : (s.separateudata false).weight (s.traversed size) = ∑ r ∈ s.whites, s.traversed size r := by
    simp [weight, isGray, whites]
  rw [start] at separated
  rw [← rest, deadmem]
  omega

theorem beforeSeparation_eq (s : State N) : s.beforeSeparation = s.remarkupvals.propagateall.remarkweak.remarkagain := by
  simp only [beforeSeparation, remarkweak, remarkagain]

theorem markRest_eq (s : State N) : s.markRest = s.beforeSeparation.preserve := by
  rw [beforeSeparation_eq, markRest]

/-- The objects that the sweep will free, with what is reported for the userdata to be finalized, are no
more than the white objects when the atomic step begins. -/
theorem atomic_bytes (underway : s.Underway) :
    s.udsize size + ∑ r ∈ s.atomic.allocated.filter (fun r => s.atomic.collects r = true), s.atomic.bytes size r ≤
      ∑ r ∈ s.whites, s.traversed size r := by
  obtain ⟨consistent, allocated, -, live, -, keeps⟩ := atomic_consistent underway
  obtain ⟨remarked, reached, tmudata, -⟩ := remarked_reached underway.sound underway.marking underway.present
  obtain ⟨allMarked, rest⟩ := markRest_allMarked underway.sound underway.marking id underway.waiting underway.marked
    underway.present
  obtain ⟨-, clears⟩ := clearweak_marked allMarked.remarked allMarked.root allMarked.tmudata
  rw [← beforeSeparation_eq] at remarked reached tmudata
  have confined : ∀ {o r}, s.Waiting o r → ∃ u ∈ s.beforeSeparation.tmudata, o = .udata u := by
    rw [tmudata]
    exact id
  have waiting : ∀ u ∈ s.beforeSeparation.tmudata, s.beforeSeparation.colour (.udata u) ≠ none := by
    rw [tmudata]
    exact fun u member => (reached.allocated _).2 (underway.waiting u member)
  have bound := @preserve_bytes _ s.beforeSeparation size _ remarked confined waiting
  have white : ∀ {r}, s.beforeSeparation.iswhite r = true → s.iswhite r = true := by
    intro r white
    by_contra notWhite
    obtain ⟨bit, colour⟩ := iswhite_iff.1 white
    have present : s.colour r ≠ none := (reached.allocated r).1 (by simp [colour])
    have nonWhite := nonWhite_of_not_white present (Bool.eq_false_iff.2 notWhite)
    rw [(reached.nonWhite nonWhite).not_white] at white
    cases white
  have fewer : ∑ r ∈ s.beforeSeparation.whites, s.beforeSeparation.traversed size r ≤ ∑ r ∈ s.whites, s.traversed size r := by
    rw [Finset.sum_congr rfl fun r _ => traversed_fades reached.fades size r]
    apply Finset.sum_le_sum_of_subset
    intro r member
    exact (mem_whites underway.sound.owned).2 (white ((mem_whites remarked.sound.owned).1 member))
  have dead : ∑ r ∈ s.atomic.allocated.filter (fun r => s.atomic.collects r = true), s.atomic.bytes size r ≤
      ∑ r ∈ s.beforeSeparation.preserve.whites, s.beforeSeparation.traversed size r := by
    have sizes : ∀ r, s.atomic.bytes size r ≤ s.beforeSeparation.traversed size r := by
      intro r
      have same : s.atomic.bytes size r = s.finishMarking.bytes size r := by
        rw [atomic_eq]
        generalize s.finishMarking = marked
        cases r <;> rfl
      rw [same, bytes_fades keeps.fades, traversed_fades reached.fades, traversed_eq]
      omega
    refine (Finset.sum_le_sum fun r _ => sizes r).trans (Finset.sum_le_sum_of_subset fun r member => ?_)
    obtain ⟨isAllocated, collects⟩ := Finset.mem_filter.1 member
    rw [← markRest_eq, mem_whites allMarked.remarked.sound.owned]
    by_contra notWhite
    have present : s.markRest.colour r ≠ none := by
      rw [rest.allocated, ← allocated]
      exact (Finset.mem_filter.1 isAllocated).2
    have nonWhite : s.finishMarking.NonWhite r :=
      clears.nonWhite (nonWhite_of_not_white present (Bool.eq_false_iff.2 notWhite))
    have notDead := ((live r).2 nonWhite).not_dead
    rw [(collects_iff.1 collects).1] at notDead
    cases notDead
  simp only [udsize]
  omega

end Preserving

end Gafq.GC.State
