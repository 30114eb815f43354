import Gafq.Verified.GC.Atomic

/-! # The invariant of the collector

What holds of the heap between any two steps, of the collector or of the program, in every phase
of the collector.  `Live` objects refer to `Live` objects only and the roots are `Live`, so nothing
that the program can reach will be freed; while the heap is being marked, no black object refers to
a white one.
-/

namespace Gafq.GC.State

variable {N : Type} {s s' : State N} {o p r : GCRef}

/-! ## The sweep -/

/-- The sweep of `rootgc` or `GCTM` will come to the object. -/
def Ahead (s : State N) (r : GCRef) : Prop :=
  r ∈ s.unswept ∨ (∃ u, r = .udata u ∧ u ∈ s.tmudata) ∨
  ∃ u th level, r = .upval u ∧ s.upval u = .inStack th level ∧ .thread th ∈ s.unswept

/-- The object may have the mark of the cycle that has not ended. -/
def Pending (s : State N) (r : GCRef) : Prop :=
  match s.gcstate with
  | .pause => False
  | .propagate => True
  | .sweepstring => s.Ahead r ∨ ∃ a, r = .string a ∧ a ∈ (s.strt.drop s.sweepstrgc).flatten
  | .sweep => s.Ahead r
  | .finalize => ∃ u, r = .udata u ∧ u ∈ s.tmudata

theorem Ahead.mono (ahead : s.Ahead r) (unswept : ∀ {o}, o ∈ s.unswept → o ∈ s'.unswept) (tmudata : ∀ {u}, u ∈ s.tmudata → u ∈ s'.tmudata)
    (upval : ∀ {u th level}, r = .upval u → s.upval u = .inStack th level → s'.upval u = .inStack th level) :
    s'.Ahead r := by
  obtain inRoot | ⟨u, rfl, member⟩ | ⟨u, th, level, rfl, kind, inRoot⟩ := ahead
  · exact .inl (unswept inRoot)
  · exact .inr (.inl ⟨u, rfl, tmudata member⟩)
  · exact .inr (.inr ⟨u, th, level, rfl, upval rfl kind, unswept inRoot⟩)

theorem Pending.mono (pending : s.Pending r) (gcstate : s'.gcstate = s.gcstate) (unswept : ∀ {o}, o ∈ s.unswept → o ∈ s'.unswept)
    (tmudata : ∀ {u}, u ∈ s.tmudata → u ∈ s'.tmudata)
    (strings : s.gcstate = .sweepstring →
      ∀ {a}, a ∈ (s.strt.drop s.sweepstrgc).flatten → a ∈ (s'.strt.drop s'.sweepstrgc).flatten)
    (upval : ∀ {u th level}, r = .upval u → s.upval u = .inStack th level → s'.upval u = .inStack th level) :
    s'.Pending r := by
  unfold Pending at pending ⊢
  rw [gcstate]
  cases phase : s.gcstate with
  | pause => simp [phase] at pending
  | propagate => trivial
  | sweepstring =>
    simp only [phase] at pending
    obtain ahead | ⟨a, rfl, member⟩ := pending
    · exact .inl (ahead.mono unswept tmudata upval)
    · exact .inr ⟨a, rfl, strings phase member⟩
  | sweep =>
    simp only [phase] at pending
    exact pending.mono unswept tmudata upval
  | finalize =>
    simp only [phase] at pending
    obtain ⟨u, rfl, member⟩ := pending
    exact ⟨u, rfl, tmudata member⟩

/-! ## Live objects -/

theorem Live.allocated (live : s.Live r) : s.colour r ≠ none := by
  obtain ⟨c, colour, -⟩ := live
  simp [colour]

theorem live_congr (colour : s'.colour r = s.colour r) (currentwhite : s'.currentwhite = s.currentwhite) :
    s'.Live r ↔ s.Live r := by
  unfold Live
  rw [colour, currentwhite]

theorem live_of_white (colour : s.colour r = some (.white s.currentwhite)) : s.Live r :=
  ⟨_, colour, by cases s.currentwhite <;> simp⟩

theorem NonWhite.live (nonWhite : s.NonWhite r) : s.Live r := by
  obtain gray | black := nonWhite
  · exact ⟨_, gray, nofun⟩
  · exact ⟨_, black, nofun⟩

theorem Live.not_dead (live : s.Live r) : s.isdead r = false := by
  obtain ⟨c, colour, ne⟩ := live
  simpa [isdead, colour] using ne

theorem live_of_not_dead (allocated : s.colour r ≠ none) (notDead : s.isdead r = false) : s.Live r := by
  obtain ⟨c, colour⟩ := Option.ne_none_iff_exists'.1 allocated
  refine ⟨c, colour, ?_⟩
  simpa [isdead, colour] using notDead

/-! ## Slots in use -/

theorem lt_foldl_max {i : Nat} (cis : List CallInfo) : ∀ {low : Nat},
    i < cis.foldl (fun lim ci => max lim ci.top) low ↔ i < low ∨ ∃ ci ∈ cis, i < ci.top := by
  induction cis with
  | nil => simp
  | cons ci cis inductionHypothesis =>
    intro low
    simp only [List.foldl_cons, inductionHypothesis, List.mem_cons, exists_eq_or_imp, lt_max_iff, or_assoc]

theorem lt_exposed {th : ThreadObject N} {i : Nat} :
    i < th.exposed ↔ i < th.top ∨ ∃ ci ∈ th.ci, ci.isC = false ∧ i < ci.top := by
  simp only [ThreadObject.exposed, lt_foldl_max, List.mem_filter, Bool.not_eq_true', and_assoc]

/-! ## The invariant -/

/-- What holds between two steps; the references in `pending` are those that a barrier still has to
look at. -/
structure Consistent (pending : GCRef → GCRef → Prop) (s : State N) : Prop where
  owned : s.Owned
  linked : s.Linked
  closed : ∀ {o r}, s.Live o → s.Refers o r → s.Live r
  root : ∀ {r}, s.Root r → s.Live r
  tmudata : ∀ {u}, u ∈ s.tmudata → s.Live (.udata u)
  fixed : ∀ {r}, s.fixed r = true → r.IsString ∨ r = .thread s.mainthread
  notOpen : ∀ {o}, s.colour o = some .black → ¬ s.IsOpen o
  clean : ∀ {r c}, s.colour r = some c → c = .white s.currentwhite ∨ s.Pending r
  marking : s.gcstate = .propagate → Marking Postponed pending s
  marked : s.gcstate = .propagate → s.NonWhite (.thread s.mainthread) ∧ s.NonWhite (.table s.registry)
  noneLeft : s.gcstate = .pause ∨ s.gcstate = .propagate → s.tmudata = []

variable {pending pending' : GCRef → GCRef → Prop}

theorem StrongRefers.refers (strong : s.StrongRefers o r) : s.Refers o r := by
  cases o with
  | table a =>
    obtain isMetatable | ⟨-, inArray⟩ | ⟨i, inside, used, key | value⟩ := strong
    · exact .inl isMetatable
    · exact .inr (.inl inArray)
    · exact .inr (.inr ⟨i, inside, used, .inl key.2⟩)
    · exact .inr (.inr ⟨i, inside, used, .inr value.2⟩)
  | thread a =>
    obtain global | ⟨i, inside, isRef⟩ := strong
    · exact .inl global
    · exact .inr ⟨i, lt_exposed.2 (.inl inside), isRef⟩
  | string | udata | proto | closure | upval => exact strong

theorem StronglyReachable.reachable (strong : s.StronglyReachable r) : s.Reachable r := by
  obtain ⟨root, isRoot, path⟩ := strong
  exact ⟨root, isRoot, Relation.ReflTransGen.mono (fun _ _ strong => strong.refers) _ _ path⟩

/-- Nothing that can be reached is dead. -/
theorem Consistent.live (consistent : Consistent pending s) (reachable : s.Reachable r) : s.Live r := by
  obtain ⟨root, isRoot, path⟩ := reachable
  induction path with
  | refl => exact consistent.root isRoot
  | tail _ refers inductionHypothesis => exact consistent.closed inductionHypothesis refers

/-- Before the sweep no object is dead. -/
theorem Consistent.live_of_allocated (consistent : Consistent pending s)
    (phase : s.gcstate = .pause ∨ s.gcstate = .propagate) (allocated : s.colour r ≠ none) : s.Live r := by
  obtain ⟨c, colour⟩ := Option.ne_none_iff_exists'.1 allocated
  obtain isPause | isPropagate := phase
  · obtain rfl | isPending := consistent.clean colour
    · exact live_of_white colour
    · simp [Pending, isPause] at isPending
  · refine ⟨c, colour, fun isDead => ?_⟩
    exact (consistent.marking isPropagate).noDead (isDead ▸ colour)

theorem Consistent.sound (consistent : Consistent pending s) (phase : s.gcstate = .pause ∨ s.gcstate = .propagate) :
    s.Sound :=
  ⟨consistent.owned,
    ⟨fun allocated refers => (consistent.closed (consistent.live_of_allocated phase allocated) refers).allocated⟩,
    consistent.linked⟩

end Gafq.GC.State
