import Gafq.Verified.GC.Interning

/-! # Finding and closing upvalues

`gafqF_findupval` may find an upvalue that the sweep is about to free.  `gafqF_close` moves an
upvalue from the list of its thread to `rootgc`; a gray one is made black or white, because a closed
upvalue is never gray.
-/

namespace Gafq.GC.State

variable {N : Type} {s s' : State N} {o p r : GCRef} {pending : GCRef → GCRef → Prop}

/-! ## `gafqF_findupval` -/

/-- The state before a new open upvalue is chained, and the state after it field by field. -/
structure Inserts (s : State N) (th level u : Nat) (higher rest : List Nat) (s' : State N) : Prop where
  live : s.Live (.thread th)
  fresh : s.marked (.upval u) = none
  whole : higher ++ rest = (s.thread th).openupval
  frame : s' = { s with
    marked := s'.marked, fixed := s'.fixed, upval := s'.upval, thread := s'.thread, uvhead := s'.uvhead }
  colour : ∀ r, s'.colour r = if r = .upval u then some (.white s.currentwhite) else s.colour r
  fixed : ∀ {r}, s'.fixed r = true → s.fixed r = true
  upval : s'.upval = Function.update s.upval u (.inStack th level)
  threads : s'.thread = Function.update s.thread th { s.thread th with openupval := higher ++ u :: rest }
  uvhead : s'.uvhead = u :: s.uvhead

namespace Inserts

variable {th level u a v : Nat} {higher rest : List Nat}

theorem thread_self (inserts : Inserts s th level u higher rest s') :
    s'.thread th = { s.thread th with openupval := higher ++ u :: rest } := by
  rw [inserts.threads, Function.update_self]

theorem thread_of_ne (inserts : Inserts s th level u higher rest s') (other : a ≠ th) : s'.thread a = s.thread a := by
  rw [inserts.threads, Function.update_of_ne other]

theorem upval_of_ne (inserts : Inserts s th level u higher rest s') (other : v ≠ u) : s'.upval v = s.upval v := by
  rw [inserts.upval, Function.update_of_ne other]

theorem rootgc (inserts : Inserts s th level u higher rest s') : s'.rootgc = s.rootgc := by
  rw [inserts.frame]
  rfl

/-- Nothing else changes in a thread. -/
theorem sameThread (inserts : Inserts s th level u higher rest s') (a : Nat) :
    ∃ openupval, s'.thread a = { s.thread a with openupval } := by
  by_cases same : a = th
  · subst same
    exact ⟨_, inserts.thread_self⟩
  · exact ⟨_, inserts.thread_of_ne same⟩

theorem perm (inserts : Inserts s th level u higher rest s') :
    (higher ++ u :: rest).Perm (u :: (s.thread th).openupval) := inserts.whole ▸ List.perm_middle

theorem refers_before (inserts : Inserts s th level u higher rest s') (present : s.colour p ≠ none) (after : s'.Refers p r) :
    s.Refers p r := by
  cases p with
  | thread a =>
    obtain ⟨openupval, same⟩ := inserts.sameThread a
    simp only [Refers, same] at after
    exact after
  | upval v =>
    have other : v ≠ u := by
      rintro rfl
      exact present inserts.fresh
    simp only [Refers, upvalValue, inserts.upval_of_ne other] at after ⊢
    cases kind : s.upval v with
    | closed value =>
      rw [kind] at after
      exact after
    | inStack a level' =>
      obtain ⟨openupval, same⟩ := inserts.sameThread a
      rw [kind] at after
      simp only [same] at after
      exact after
  | string | udata | proto | closure | table =>
    rw [inserts.frame] at after
    exact after

theorem creates (inserts : Inserts s th level u higher rest s') : Creates (.upval u) s s' := by
  refine ⟨inserts.fresh, inserts.colour, inserts.fixed, ?_, ?_, ?_, ?_, ?_, fun root => ?_, ?_, ?_, ?_, inserts.refers_before,
    fun _ => ?_, fun {v th' level'} other => ?_, fun member => ?_, fun _ {b} member => ?_⟩
  · rw [inserts.frame]
  · rw [inserts.frame]
  · rw [inserts.frame]
  · rw [inserts.frame]
  · rw [inserts.frame]
  · rw [inserts.frame] at root
    exact root.congr rfl rfl rfl rfl
  · rw [inserts.frame]
  · rw [inserts.frame]
  · rw [inserts.frame]
  · rw [inserts.frame]
  · rw [inserts.upval_of_ne fun same => other (same ▸ rfl)]
  · rw [inserts.frame]
    exact member
  · rw [inserts.frame]
    exact member

theorem ne (inserts : Inserts s th level u higher rest s') (present : s.colour (.upval v) ≠ none) : v ≠ u := fun same =>
  inserts.creates.ne present (same ▸ rfl)

theorem owned (inserts : Inserts s th level u higher rest s') (owned : s.Owned) : s'.Owned := by
  have creates := inserts.creates
  have notListed : ∀ {a}, s.colour (.thread a) ≠ none → u ∉ (s.thread a).openupval := fun present member =>
    (owned.openList present member).1 inserts.fresh
  constructor
  · intro a present
    rw [inserts.frame]
    exact owned.string ((creates.allocated present).resolve_left (by rintro ⟨⟩))
  · intro a present
    rw [inserts.rootgc, creates.tmudata]
    exact owned.udata ((creates.allocated present).resolve_left (by rintro ⟨⟩))
  · intro p traversable present
    rw [inserts.rootgc]
    refine owned.traversable traversable ((creates.allocated present).resolve_left ?_)
    rintro rfl
    exact traversable
  · intro v value present kind
    rw [inserts.rootgc]
    obtain same | before := creates.allocated present
    · cases same
      rw [inserts.upval, Function.update_self] at kind
      cases kind
    · rw [inserts.upval_of_ne (inserts.ne before)] at kind
      exact owned.closedUpval before kind
  · intro v th' level' present kind
    rw [inserts.uvhead]
    obtain same | before := creates.allocated present
    · cases same
      rw [inserts.upval, Function.update_self] at kind
      cases kind
      rw [creates.kept inserts.live.allocated, inserts.thread_self]
      exact ⟨List.mem_cons_self, inserts.perm.mem_iff.2 List.mem_cons_self, inserts.live.allocated⟩
    · rw [inserts.upval_of_ne (inserts.ne before)] at kind
      obtain ⟨inUvhead, inList, here⟩ := owned.openUpval before kind
      rw [creates.kept here]
      refine ⟨List.mem_cons_of_mem _ inUvhead, ?_, here⟩
      by_cases same : th' = th
      · subst same
        rw [inserts.thread_self]
        exact inserts.perm.mem_iff.2 (List.mem_cons_of_mem _ inList)
      · rw [inserts.thread_of_ne same]
        exact inList
  · intro a present
    have before := (creates.allocated present).resolve_left (by rintro ⟨⟩)
    by_cases same : a = th
    · subst same
      rw [inserts.thread_self]
      exact inserts.perm.nodup_iff.2 (List.nodup_cons.2 ⟨notListed before, owned.openNodup before⟩)
    · rw [inserts.thread_of_ne same]
      exact owned.openNodup before
  · intro a v present member
    have before := (creates.allocated present).resolve_left (by rintro ⟨⟩)
    have which : v = u ∨ v ∈ (s.thread a).openupval := by
      by_cases same : a = th
      · subst same
        rw [inserts.thread_self] at member
        exact List.mem_cons.1 (inserts.perm.mem_iff.1 member)
      · rw [inserts.thread_of_ne same] at member
        exact .inr member
    obtain rfl | inList := which
    · rw [creates.white, inserts.upval, Function.update_self]
      by_cases same : a = th
      · subst same
        exact ⟨by rintro ⟨⟩, level, rfl⟩
      · rw [inserts.thread_of_ne same] at member
        exact absurd member (notListed before)
    · obtain ⟨here, level', kind⟩ := owned.openList before inList
      rw [creates.kept here, inserts.upval_of_ne (inserts.ne here)]
      exact ⟨here, level', kind⟩
  · rw [inserts.frame]
    exact owned.buckets

theorem linked (inserts : Inserts s th level u higher rest s') (linked : s.Linked) : s'.Linked := by
  have creates := inserts.creates
  constructor
  · rw [inserts.rootgc, creates.tmudata]
    exact linked.nodup
  · intro p member
    rw [inserts.rootgc] at member
    obtain ⟨present, notOpen⟩ := linked.allocated member
    rw [creates.kept present, creates.isOpen (creates.ne present)]
    exact ⟨present, notOpen⟩
  · rw [inserts.rootgc]
    exact linked.notString
  · rw [inserts.frame]
    exact linked.strings
  · intro a member
    rw [inserts.frame] at member
    have present := linked.interned member
    rw [creates.kept present]
    exact present

end Inserts

/-- A new open upvalue between two parts of the list of its thread. -/
theorem insertUpval_created {th level u : Nat} {higher rest : List Nat} (consistent : Consistent nothing s)
    (live : s.Live (.thread th)) (inUse : level < (s.thread th).exposed) (fresh : s.marked (.upval u) = none)
    (whole : higher ++ rest = (s.thread th).openupval) :
    Created (.upval u) s
      { s.marknew (.upval u) with
        upval := Function.update s.upval u (.inStack th level)
        thread := Function.update s.thread th { s.thread th with openupval := higher ++ u :: rest }
        uvhead := u :: s.uvhead } := by
  generalize result : ({ s.marknew (.upval u) with
      upval := Function.update s.upval u (.inStack th level)
      thread := Function.update s.thread th { s.thread th with openupval := higher ++ u :: rest }
      uvhead := u :: s.uvhead } : State N) = s'
  have inserts : Inserts s th level u higher rest s' := by
    subst result
    exact ⟨live, fresh, whole, rfl, fun r => colour_marknew s _ r, fixed_marknew, rfl, rfl, rfl⟩
  have creates := inserts.creates
  refine ⟨consistent.creates creates (inserts.owned consistent.owned) (inserts.linked consistent.linked) fun {r} refers => ?_,
    creates.live_self, creates.live⟩
  have value : s'.upvalValue u = (s.thread th).stack level := by
    simp only [upvalValue, inserts.upval, Function.update_self, inserts.thread_self]
  simp only [Refers, value] at refers
  exact consistent.closed live (.inr ⟨level, inUse, refers⟩)

/-- The upvalue that `gafqF_findupval` returns is live. -/
theorem findupval_created {th level fresh : Nat} (consistent : Consistent nothing s) (live : s.Live (.thread th))
    (inUse : level < (s.thread th).exposed) (unused : s.marked (.upval fresh) = none) :
    Created (.upval (s.findupval th level fresh).1) s (s.findupval th level fresh).2 := by
  have whole : (s.thread th).openupval.takeWhile (s.above level) ++ (s.thread th).openupval.dropWhile (s.above level) =
      (s.thread th).openupval := List.takeWhile_append_dropWhile
  have created := insertUpval_created consistent live inUse unused whole
  unfold findupval
  simp only
  cases rest : (s.thread th).openupval.dropWhile (s.above level) with
  | nil =>
    rw [rest] at created
    exact created
  | cons u rest' =>
    simp only
    split
    · next found =>
      have inList : u ∈ (s.thread th).openupval := by
        rw [← whole, rest]
        exact List.mem_append_right _ List.mem_cons_self
      obtain ⟨present, level', kind⟩ := consistent.owned.openList live.allocated inList
      obtain rfl : level' = level := by simpa [State.level, kind] using found
      split
      · next dead =>
        refine consistent.resurrect dead fun {r} refers => ?_
        simp only [Refers, upvalValue, kind] at refers
        exact consistent.closed live (.inr ⟨level', inUse, refers⟩)
      · next alive => exact ⟨consistent, live_of_not_dead present (Bool.eq_false_iff.2 alive), id⟩
    · rw [rest] at created
      exact created

/-! ## `gafqF_close` -/

section Closing

variable {th u : Nat} {rest : List Nat}

/-- The dead upvalue `u`, the first of its thread, is taken off its lists and freed. -/
structure Drops (th u : Nat) (rest : List Nat) (s s' : State N) : Prop where
  present : s.colour (.thread th) ≠ none
  openupval : (s.thread th).openupval = u :: rest
  dead : s.isdead (.upval u) = true
  result : s' = (s.setThread th { s.thread th with openupval := rest }).freeupval u

namespace Drops

theorem colour (drops : Drops th u rest s s') (r : GCRef) : s'.colour r = if r = .upval u then none else s.colour r := by
  rw [drops.result]
  exact colour_free _ _ r

theorem gone (drops : Drops th u rest s s') (allocated : s'.colour r ≠ none) : r ≠ .upval u ∧ s.colour r ≠ none := by
  rw [drops.colour] at allocated
  split at allocated
  · exact absurd rfl allocated
  · next other => exact ⟨other, allocated⟩

theorem kept (drops : Drops th u rest s s') (other : r ≠ .upval u) : s'.colour r = s.colour r := by
  rw [drops.colour, if_neg other]

theorem thread (drops : Drops th u rest s s') : s'.thread th = { s.thread th with openupval := rest } := by
  rw [drops.result]
  exact Function.update_self ..

theorem otherThread (drops : Drops th u rest s s') {a : Nat} (other : a ≠ th) : s'.thread a = s.thread a := by
  rw [drops.result]
  exact Function.update_of_ne other ..

theorem uvhead (drops : Drops th u rest s s') : s'.uvhead = s.uvhead.filter (· != u) := by rw [drops.result]; rfl

theorem upval (drops : Drops th u rest s s') : s'.upval = s.upval := by rw [drops.result]; rfl

theorem rootgc (drops : Drops th u rest s s') : s'.rootgc = s.rootgc := by rw [drops.result]; rfl

theorem tmudata (drops : Drops th u rest s s') : s'.tmudata = s.tmudata := by rw [drops.result]; rfl

theorem strt (drops : Drops th u rest s s') : s'.strt = s.strt := by rw [drops.result]; rfl

theorem inStack (drops : Drops th u rest s s') (owned : s.Owned) : ∃ level, s.upval u = .inStack th level :=
  (owned.openList drops.present (drops.openupval ▸ List.mem_cons_self)).2

theorem refers_before (drops : Drops th u rest s s') {p : GCRef} (after : s'.Refers p r) : s.Refers p r := by
  cases p with
  | thread a =>
    by_cases same : a = th
    · subst same
      simp only [Refers, drops.thread] at after
      exact after
    · simp only [Refers, drops.otherThread same] at after
      exact after
  | upval v =>
    have value : s'.upvalValue v = s.upvalValue v := by
      simp only [upvalValue, drops.upval]
      cases s.upval v with
      | closed value => rfl
      | inStack a level' =>
        by_cases same : a = th
        · subst same
          simp only [drops.thread]
        · simp only [drops.otherThread same]
    simp only [Refers, value] at after
    exact after
  | string | udata | proto | closure | table =>
    rw [drops.result] at after
    exact after

theorem reclaims (drops : Drops th u rest s s') (notFixed : s.fixed (.upval u) = false) : Reclaims s s' := by
  have threads : ∀ a, ∃ openupval, s'.thread a = { s.thread a with openupval } := by
    intro a
    by_cases same : a = th
    · subst same
      exact ⟨rest, drops.thread⟩
    · exact ⟨_, drops.otherThread same⟩
  have fades : Fades s s' := by
    refine .of_openupval drops.refers_before ?_ ?_ ?_ threads
    all_goals
      rw [drops.result]
      rfl
  constructor
  case colour =>
    intro r
    by_cases self : r = .upval u
    · subst self
      exact .inr (.inr ⟨by rw [drops.colour, if_pos rfl], collects_iff.2 ⟨drops.dead, notFixed⟩⟩)
    · exact .inl (drops.kept self)
  case fades => exact fades
  case root =>
    intro r root
    rw [drops.result] at root
    exact root.congr rfl rfl rfl rfl
  case isOpen =>
    intro o isOpen
    rw [drops.result] at isOpen
    exact isOpen
  all_goals
    rw [drops.result]
    rfl

theorem owned (drops : Drops th u rest s s') (owned : s.Owned) : s'.Owned := by
  obtain ⟨level, kind⟩ := drops.inStack owned
  have nodup := owned.openNodup drops.present
  rw [drops.openupval, List.nodup_cons] at nodup
  constructor
  · intro a allocated
    rw [drops.strt]
    exact owned.string (drops.gone allocated).2
  · intro a allocated
    rw [drops.rootgc, drops.tmudata]
    exact owned.udata (drops.gone allocated).2
  · intro o traversable allocated
    rw [drops.rootgc]
    exact owned.traversable traversable (drops.gone allocated).2
  · intro v x allocated kind'
    rw [drops.upval] at kind'
    rw [drops.rootgc]
    exact owned.closedUpval (drops.gone allocated).2 kind'
  · intro v a level' allocated kind'
    rw [drops.upval] at kind'
    obtain ⟨other, before⟩ := drops.gone allocated
    obtain ⟨inUvhead, inList, here⟩ := owned.openUpval before kind'
    have other : v ≠ u := fun same => other (same ▸ rfl)
    rw [drops.uvhead, drops.kept (r := .thread a) (by rintro ⟨⟩)]
    refine ⟨List.mem_filter.2 ⟨inUvhead, by simpa using other⟩, ?_, here⟩
    by_cases same : a = th
    · subst same
      rw [drops.thread]
      rw [drops.openupval] at inList
      exact (List.mem_cons.1 inList).resolve_left other
    · rw [drops.otherThread same]
      exact inList
  · intro a allocated
    by_cases same : a = th
    · subst same
      rw [drops.thread]
      exact nodup.2
    · rw [drops.otherThread same]
      exact owned.openNodup (drops.gone allocated).2
  · intro a v allocated member
    have before := (drops.gone allocated).2
    have which : v ≠ u ∧ v ∈ (s.thread a).openupval := by
      by_cases same : a = th
      · subst same
        rw [drops.thread] at member
        refine ⟨fun same => nodup.1 (same ▸ member), ?_⟩
        rw [drops.openupval]
        exact List.mem_cons_of_mem _ member
      · rw [drops.otherThread same] at member
        refine ⟨?_, member⟩
        rintro rfl
        obtain ⟨-, level', kind'⟩ := owned.openList before member
        rw [kind] at kind'
        cases kind'
        exact same rfl
    obtain ⟨here, kind'⟩ := owned.openList before which.2
    rw [drops.kept (fun same => which.1 (GCRef.upval.inj same)), drops.upval]
    exact ⟨here, kind'⟩
  · rw [drops.strt]
    exact owned.buckets

theorem linked (drops : Drops th u rest s s') (owned : s.Owned) (linked : s.Linked) : s'.Linked := by
  obtain ⟨level, kind⟩ := drops.inStack owned
  constructor
  · rw [drops.rootgc, drops.tmudata]
    exact linked.nodup
  · intro p member
    rw [drops.rootgc] at member
    obtain ⟨here, notOpen⟩ := linked.allocated member
    rw [drops.kept]
    · simp only [IsOpen, drops.upval]
      exact ⟨here, notOpen⟩
    · rintro rfl
      exact notOpen ⟨u, th, level, rfl, kind⟩
  · rw [drops.rootgc]
    exact linked.notString
  · rw [drops.strt]
    exact linked.strings
  · intro a member
    rw [drops.strt] at member
    rw [drops.kept (r := .string a) (by rintro ⟨⟩)]
    exact linked.interned member

end Drops

/-- A dead upvalue is taken off its lists and freed. -/
theorem Consistent.freeClosed (consistent : Consistent nothing s) (present : s.colour (.thread th) ≠ none)
    (openupval : (s.thread th).openupval = u :: rest) (dead : s.isdead (.upval u) = true) :
    let s' := (s.setThread th { s.thread th with openupval := rest }).freeupval u
    Consistent nothing s' ∧ Spares s s' := by
  intro s'
  have drops : Drops th u rest s s' := ⟨present, openupval, dead, rfl⟩
  have isColour : s.colour (.upval u) = some (.white !s.currentwhite) := by simpa [isdead] using dead
  have notFixed : s.fixed (.upval u) = false := by
    apply Bool.eq_false_iff.2
    intro isFixed
    exact (consistent.fixed isFixed).elim id (by rintro ⟨⟩)
  have notPropagate : s.gcstate ≠ .propagate := fun phase => (consistent.marking phase).noDead isColour
  have notPause : s.gcstate ≠ .pause := by
    intro phase
    obtain same | isPending := consistent.clean isColour
    · simp at same
    · simp [Pending, phase] at isPending
  have reclaims := drops.reclaims notFixed
  refine ⟨consistent.reclaims reclaims (drops.owned consistent.owned) (drops.linked consistent.owned consistent.linked)
    (fun {r c} after => ?_) ⟨notPropagate, notPause⟩, reclaims.live⟩
  obtain ⟨other, -⟩ := drops.gone (by rw [after]; rintro ⟨⟩)
  rw [drops.kept other] at after
  refine (consistent.clean after).imp id fun isPending => ?_
  exact isPending.mono rfl id id (fun _ _ => id) fun _ => id

/-- The upvalue gets a value of its own and is taken off the lists of open upvalues. -/
def unchain (s : State N) (th u : Nat) (rest : List Nat) : State N :=
  { s with
    thread := Function.update s.thread th { s.thread th with openupval := rest }
    uvhead := s.uvhead.filter (· != u)
    upval := Function.update s.upval u (.closed (s.upvalValue u)) }

/-- It is put into `rootgc` with a new colour. -/
def detach (s : State N) (th u : Nat) (rest : List Nat) (c : Colour) : State N :=
  { (s.unchain th u rest).linkroot (.upval u) with marked := Function.update s.marked (.upval u) (some c) }

/-- The state before `detach`, and the state after it field by field. -/
structure Detaches (s : State N) (th u : Nat) (rest : List Nat) (c : Colour) (s' : State N) : Prop where
  present : s.colour (.thread th) ≠ none
  openupval : (s.thread th).openupval = u :: rest
  live : s.Live (.upval u)
  fits : c = .white s.currentwhite ∧ (s.gcstate = .propagate → ¬ s.NonWhite (.upval u)) ∨ c = .black ∧ s.gcstate = .propagate
  frame : s' = { s with
    marked := s'.marked, upval := s'.upval, uvhead := s'.uvhead, swept := s'.swept, unswept := s'.unswept
    thread := s'.thread }
  colour : ∀ r, s'.colour r = if r = .upval u then some c else s.colour r
  upval : s'.upval = Function.update s.upval u (.closed (s.upvalValue u))
  uvhead : s'.uvhead = s.uvhead.filter (· != u)
  threads : s'.thread = Function.update s.thread th { s.thread th with openupval := rest }
  rootgc : s'.rootgc = .upval u :: s.rootgc
  unswept : ∀ {o}, o ∈ s.unswept → o ∈ s'.unswept

theorem detach_detaches {c : Colour} (present : s.colour (.thread th) ≠ none) (openupval : (s.thread th).openupval = u :: rest)
    (live : s.Live (.upval u))
    (fits : c = .white s.currentwhite ∧ (s.gcstate = .propagate → ¬ s.NonWhite (.upval u)) ∨
      c = .black ∧ s.gcstate = .propagate) : Detaches s th u rest c (s.detach th u rest c) := by
  refine ⟨present, openupval, live, fits, ?_, fun r => ?_, ?_, ?_, ?_, linkroot_rootgc _ _, fun member => mem_unswept_linkroot _ member⟩
  · simp only [State.detach]
    rw [linkroot_frame]
    rfl
  · unfold State.colour
    by_cases same : r = .upval u
    · subst same
      rw [if_pos rfl]
      exact Function.update_self ..
    · rw [if_neg same]
      exact Function.update_of_ne same ..
  · simp only [State.detach]
    rw [linkroot_frame]
    rfl
  · simp only [State.detach]
    rw [linkroot_frame]
    rfl
  · simp only [State.detach]
    rw [linkroot_frame]
    rfl

namespace Detaches

variable {c : Colour} {a v : Nat}

theorem thread_self (detaches : Detaches s th u rest c s') : s'.thread th = { s.thread th with openupval := rest } := by
  rw [detaches.threads, Function.update_self]

theorem thread_of_ne (detaches : Detaches s th u rest c s') (other : a ≠ th) : s'.thread a = s.thread a := by
  rw [detaches.threads, Function.update_of_ne other]

theorem upval_of_ne (detaches : Detaches s th u rest c s') (other : v ≠ u) : s'.upval v = s.upval v := by
  rw [detaches.upval, Function.update_of_ne other]

theorem kept (detaches : Detaches s th u rest c s') (other : r ≠ .upval u) : s'.colour r = s.colour r := by
  rw [detaches.colour, if_neg other]

theorem colour_self (detaches : Detaches s th u rest c s') : s'.colour (.upval u) = some c := by rw [detaches.colour, if_pos rfl]

theorem currentwhite (detaches : Detaches s th u rest c s') : s'.currentwhite = s.currentwhite := by rw [detaches.frame]

theorem gcstate (detaches : Detaches s th u rest c s') : s'.gcstate = s.gcstate := by rw [detaches.frame]

theorem tmudata (detaches : Detaches s th u rest c s') : s'.tmudata = s.tmudata := by rw [detaches.frame]

theorem live_self (detaches : Detaches s th u rest c s') : s'.Live (.upval u) := by
  have self := detaches.colour_self
  obtain ⟨rfl, -⟩ | ⟨rfl, -⟩ := detaches.fits
  · exact live_of_white (detaches.currentwhite ▸ self)
  · exact NonWhite.live (.inr self)

theorem live_iff (detaches : Detaches s th u rest c s') : s'.Live r ↔ s.Live r := by
  by_cases same : r = .upval u
  · subst same
    exact ⟨fun _ => detaches.live, fun _ => detaches.live_self⟩
  · exact live_congr (detaches.kept same) detaches.currentwhite

theorem allocated (detaches : Detaches s th u rest c s') : s'.colour r ≠ none ↔ s.colour r ≠ none := by
  by_cases same : r = .upval u
  · subst same
    exact ⟨fun _ => detaches.live.allocated, fun _ => detaches.live_self.allocated⟩
  · rw [detaches.kept same]

theorem nonWhite (detaches : Detaches s th u rest c s') (phase : s.gcstate = .propagate) (before : s.NonWhite r) : s'.NonWhite r := by
  by_cases same : r = .upval u
  · subst same
    have self := detaches.colour_self
    obtain ⟨-, white⟩ | ⟨rfl, -⟩ := detaches.fits
    · exact absurd before (white phase)
    · exact .inr self
  · exact (nonWhite_congr (detaches.kept same)).2 before

theorem upvalValue (detaches : Detaches s th u rest c s') (v : Nat) : s'.upvalValue v = s.upvalValue v := by
  by_cases same : v = u
  · subst same
    simp only [State.upvalValue, detaches.upval, Function.update_self]
  · simp only [State.upvalValue, detaches.upval_of_ne same]
    cases s.upval v with
    | closed value => rfl
    | inStack a level =>
      by_cases same : a = th
      · subst same
        simp only [detaches.thread_self]
      · simp only [detaches.thread_of_ne same]

theorem refers (detaches : Detaches s th u rest c s') : s'.Refers = s.Refers := by
  funext p r
  cases p with
  | thread a =>
    by_cases same : a = th
    · subst same
      simp only [Refers, detaches.thread_self]
      rfl
    · simp only [Refers, detaches.thread_of_ne same]
  | upval v => simp only [Refers, detaches.upvalValue]
  | string | udata | proto | closure | table =>
    rw [detaches.frame]
    rfl

theorem holds (detaches : Detaches s th u rest c s') : s'.Holds = s.Holds := by
  funext p r
  have table : s'.table = s.table := by rw [detaches.frame]
  simp only [Holds, detaches.refers, table]

theorem isOpen (detaches : Detaches s th u rest c s') : s'.IsOpen p ↔ s.IsOpen p ∧ p ≠ .upval u := by
  constructor
  · rintro ⟨v, a, level, rfl, kind⟩
    by_cases same : v = u
    · subst same
      rw [detaches.upval, Function.update_self] at kind
      cases kind
    · rw [detaches.upval_of_ne same] at kind
      exact ⟨⟨v, a, level, rfl, kind⟩, fun isSame => same (GCRef.upval.inj isSame)⟩
  · rintro ⟨⟨v, a, level, rfl, kind⟩, other⟩
    exact ⟨v, a, level, rfl, by rw [detaches.upval_of_ne fun same => other (same ▸ rfl), kind]⟩

/-- Only in the list of its own thread the upvalue has been. -/
theorem mem_openupval (detaches : Detaches s th u rest c s') (owned : s.Owned) (here : s.colour (.thread a) ≠ none)
    (member : v ∈ (s'.thread a).openupval) : v ≠ u ∧ v ∈ (s.thread a).openupval := by
  obtain ⟨-, level, kind⟩ := owned.openList detaches.present (detaches.openupval ▸ List.mem_cons_self)
  have nodup := owned.openNodup detaches.present
  rw [detaches.openupval, List.nodup_cons] at nodup
  by_cases same : a = th
  · subst same
    rw [detaches.thread_self] at member
    refine ⟨fun same => nodup.1 (same ▸ member), ?_⟩
    rw [detaches.openupval]
    exact List.mem_cons_of_mem _ member
  · rw [detaches.thread_of_ne same] at member
    refine ⟨?_, member⟩
    rintro rfl
    obtain ⟨-, level', kind'⟩ := owned.openList here member
    rw [kind] at kind'
    cases kind'
    exact same rfl

theorem owned (detaches : Detaches s th u rest c s') (owned : s.Owned) : s'.Owned := by
  constructor
  · intro a here
    rw [detaches.frame]
    exact owned.string (detaches.allocated.1 here)
  · intro a here
    rw [detaches.rootgc, detaches.tmudata]
    exact (owned.udata (detaches.allocated.1 here)).imp (List.mem_cons_of_mem _) id
  · intro p traversable here
    rw [detaches.rootgc]
    exact List.mem_cons_of_mem _ (owned.traversable traversable (detaches.allocated.1 here))
  · intro v value here kind
    rw [detaches.rootgc]
    by_cases same : v = u
    · exact same ▸ List.mem_cons_self
    · rw [detaches.upval_of_ne same] at kind
      exact List.mem_cons_of_mem _ (owned.closedUpval (detaches.allocated.1 here) kind)
  · intro v a level here kind
    obtain ⟨-, other⟩ := detaches.isOpen.1 ⟨v, a, level, rfl, kind⟩
    have other : v ≠ u := fun same => other (same ▸ rfl)
    rw [detaches.upval_of_ne other] at kind
    obtain ⟨inUvhead, inList, present⟩ := owned.openUpval (detaches.allocated.1 here) kind
    rw [detaches.uvhead]
    refine ⟨List.mem_filter.2 ⟨inUvhead, by simpa using other⟩, ?_, detaches.allocated.2 present⟩
    by_cases same : a = th
    · subst same
      rw [detaches.thread_self]
      rw [detaches.openupval] at inList
      exact (List.mem_cons.1 inList).resolve_left other
    · rw [detaches.thread_of_ne same]
      exact inList
  · intro a here
    by_cases same : a = th
    · subst same
      have nodup := owned.openNodup detaches.present
      rw [detaches.openupval, List.nodup_cons] at nodup
      rw [detaches.thread_self]
      exact nodup.2
    · rw [detaches.thread_of_ne same]
      exact owned.openNodup (detaches.allocated.1 here)
  · intro a v here member
    have before := detaches.allocated.1 here
    obtain ⟨other, inList⟩ := detaches.mem_openupval owned before member
    obtain ⟨present, level, kind⟩ := owned.openList before inList
    exact ⟨detaches.allocated.2 present, level, by rw [detaches.upval_of_ne other, kind]⟩
  · rw [detaches.frame]
    exact owned.buckets

theorem linked (detaches : Detaches s th u rest c s') (owned : s.Owned) (linked : s.Linked) : s'.Linked := by
  obtain ⟨-, level, kind⟩ := owned.openList detaches.present (detaches.openupval ▸ List.mem_cons_self)
  constructor
  · rw [detaches.rootgc, detaches.tmudata, List.cons_append, List.nodup_cons]
    refine ⟨fun member => ?_, linked.nodup⟩
    cases List.mem_append.1 member with
    | inl inRoot => exact (linked.allocated inRoot).2 ⟨u, th, level, rfl, kind⟩
    | inr isTm =>
      obtain ⟨v, -, same⟩ := List.mem_map.1 isTm
      cases same
  · intro p member
    rw [detaches.allocated, detaches.isOpen]
    rw [detaches.rootgc] at member
    cases List.mem_cons.1 member with
    | inl head => exact ⟨head ▸ detaches.live.allocated, fun isOpen => isOpen.2 head⟩
    | inr tail => exact (linked.allocated tail).imp id fun notOpen isOpen => notOpen isOpen.1
  · intro a member
    rw [detaches.rootgc] at member
    cases List.mem_cons.1 member with
    | inl head => cases head
    | inr tail => exact linked.notString tail
  · rw [detaches.frame]
    exact linked.strings
  · intro a member
    rw [detaches.frame] at member
    exact detaches.allocated.2 (linked.interned member)

/-- A pending object stays pending, and so does the upvalue if it is black. -/
theorem clean (detaches : Detaches s th u rest c s') {c' : Colour}
    (before : ∀ {r c}, s.colour r = some c → c = .white s.currentwhite ∨ s.Pending r) (after : s'.colour r = some c') : c' = .white s'.currentwhite ∨ s'.Pending r := by
  rw [detaches.currentwhite]
  by_cases same : r = .upval u
  · subst same
    rw [detaches.colour_self] at after
    cases after
    obtain ⟨rfl, -⟩ | ⟨rfl, phase⟩ := detaches.fits
    · exact .inl rfl
    · refine .inr ?_
      unfold Pending
      rw [detaches.gcstate, phase]
      trivial
  · rw [detaches.kept same] at after
    refine (before after).imp id fun isPending => ?_
    refine isPending.mono detaches.gcstate detaches.unswept (fun member => detaches.tmudata ▸ member) (fun _ {b} member => ?_)
      fun isUpval kind => ?_
    · rw [detaches.frame]
      exact member
    · rw [detaches.upval_of_ne fun isSame => same (isUpval.trans (isSame ▸ rfl)), kind]

/-- What the value of the upvalue refers to is left to the barrier. -/
theorem marking (detaches : Detaches s th u rest c s') (phase : s.gcstate = .propagate) (marking : Marking Postponed nothing s) :
    Marking Postponed (fun p r => p = .upval u ∧ gcvalue (s.upvalValue u) = some r) s' := by
  have gray : s'.gray = s.gray := by rw [detaches.frame]
  have grayagain : s'.grayagain = s.grayagain := by rw [detaches.frame]
  have weak : s'.weak = s.weak := by rw [detaches.frame]
  constructor
  · intro r
    rw [detaches.currentwhite]
    by_cases same : r = .upval u
    · subst same
      rw [detaches.colour_self]
      obtain ⟨rfl, -⟩ | ⟨rfl, -⟩ := detaches.fits
      · cases s.currentwhite <;> decide
      · rintro ⟨⟩
    · rw [detaches.kept same]
      exact marking.noDead
  · intro p r black after
    rw [detaches.holds] at after
    by_cases same : p = .upval u
    · subst same
      obtain isRef | ⟨a, isTable, -⟩ := after
      · exact .inr ⟨rfl, isRef⟩
      · cases isTable
    · rw [detaches.kept same] at black
      exact .inl (detaches.nonWhite phase ((marking.black black after).resolve_right id))
  · intro p black
    rw [detaches.isOpen]
    by_cases same : p = .upval u
    · exact ⟨fun a isThread => (by cases same.symm.trans isThread), fun isOpen => isOpen.2 same⟩
    · rw [detaches.kept same] at black
      exact (marking.notBlack black).imp id fun notOpen isOpen => notOpen isOpen.1
  · intro p isGray
    have same : p ≠ .upval u := by
      rintro rfl
      rw [detaches.colour_self] at isGray
      obtain ⟨rfl, -⟩ | ⟨rfl, -⟩ := detaches.fits <;> cases isGray
    rw [detaches.kept same] at isGray
    unfold Postponed
    rw [gray, grayagain, weak, detaches.isOpen]
    obtain listed | again | inWeak | isString | opened := marking.gray isGray
    · exact .inl listed
    · exact .inr (.inl again)
    · exact .inr (.inr (.inl inWeak))
    · exact .inr (.inr (.inr (.inl isString)))
    · exact .inr (.inr (.inr (.inr ⟨opened, same⟩)))
  · intro p listed
    rw [gray, grayagain, weak] at listed
    exact (marking.listed listed).imp id (detaches.nonWhite phase)

end Detaches

theorem Consistent.detach {c : Colour} (consistent : Consistent nothing s) (present : s.colour (.thread th) ≠ none)
    (openupval : (s.thread th).openupval = u :: rest) (live : s.Live (.upval u))
    (fits : c = .white s.currentwhite ∧ (s.gcstate = .propagate → ¬ s.NonWhite (.upval u)) ∨
      c = .black ∧ s.gcstate = .propagate) :
    let s' := s.detach th u rest c
    Consistent (fun p r => p = .upval u ∧ gcvalue (s.upvalValue u) = some r) s' ∧ Spares s s' := by
  intro s'
  have detaches : Detaches s th u rest c s' := detach_detaches present openupval live fits
  clear_value s'
  refine ⟨⟨detaches.owned consistent.owned, detaches.linked consistent.owned consistent.linked, fun isLive after => ?_,
    fun root => ?_, fun member => ?_, ?_, fun {p} black => ?_, detaches.clean consistent.clean, fun phase => ?_, fun phase => ?_,
    ?_⟩, detaches.live_iff.2⟩
  · rw [detaches.refers] at after
    exact detaches.live_iff.2 (consistent.closed (detaches.live_iff.1 isLive) after)
  · rw [detaches.frame] at root
    exact detaches.live_iff.2 (consistent.root (root.congr rfl rfl rfl rfl))
  · rw [detaches.tmudata] at member
    exact detaches.live_iff.2 (consistent.tmudata member)
  · rw [detaches.frame]
    exact consistent.fixed
  · rw [detaches.isOpen]
    rintro ⟨before, other⟩
    rw [detaches.kept other] at black
    exact consistent.notOpen black before
  · have before := detaches.gcstate ▸ phase
    exact detaches.marking before (consistent.marking before)
  · have before := detaches.gcstate ▸ phase
    rw [show s'.mainthread = s.mainthread by rw [detaches.frame], show s'.registry = s.registry by rw [detaches.frame]]
    exact (consistent.marked before).imp (detaches.nonWhite before) (detaches.nonWhite before)
  · rw [detaches.gcstate, detaches.tmudata]
    exact consistent.noneLeft

/-- In the mark phase a barrier marks. -/
theorem barrier_marks {v : TValue N} (consistent : Consistent pending s) (phase : s.gcstate = .propagate) (p : GCRef) :
    Marks s (s.barrier p v) := by
  have sound := consistent.sound (.inr phase)
  unfold State.barrier
  cases gcvalue v with
  | none => exact Marks.refl s
  | some o =>
    simp only [State.objbarrier]
    split
    · next crossing =>
      simp only [Bool.and_eq_true] at crossing
      rw [barrierf, if_pos phase]
      exact (reallymarkobject_marks sound.grounded crossing.1).1
    · exact Marks.refl s

theorem closeupval_alive {level : Nat} (alive : s.isdead (.upval u) = false) (kind : s.upval u = .inStack th level) :
    (s.setThread th { s.thread th with openupval := rest }).closeupval u = (s.unchain th u rest).linkupval u := by
  have sameDead : (s.setThread th { s.thread th with openupval := rest }).isdead (.upval u) = false := alive
  have value : (s.setThread th { s.thread th with openupval := rest }).upvalValue u = s.upvalValue u := by
    simp only [upvalValue, setThread, kind, Function.update_self]
  simp only [closeupval, sameDead, value, Bool.false_eq_true, if_false]
  rfl

/-- One iteration of `gafqF_close`. -/
theorem closeupval_consistent (consistent : Consistent nothing s) (live : s.Live (.thread th))
    (openupval : (s.thread th).openupval = u :: rest) :
    let s' := (s.setThread th { s.thread th with openupval := rest }).closeupval u
    Consistent nothing s' ∧ Spares s s' ∧ (s'.thread th).openupval = rest := by
  intro s'
  obtain ⟨present, level, kind⟩ := consistent.owned.openList live.allocated (openupval ▸ List.mem_cons_self)
  by_cases dead : s.isdead (.upval u) = true
  · have result : s' = (s.setThread th { s.thread th with openupval := rest }).freeupval u := if_pos dead
    obtain ⟨consistent', spares⟩ := consistent.freeClosed live.allocated openupval dead
    rw [result]
    refine ⟨consistent', spares, ?_⟩
    simp [freeupval, free, setThread]
  · have alive : s.isdead (.upval u) = false := Bool.eq_false_iff.2 dead
    have isLive := live_of_not_dead present alive
    have result : s' = (s.unchain th u rest).linkupval u := closeupval_alive alive kind
    have frame := linkroot_frame (s.unchain th u rest) (.upval u)
    have detached : ∀ c, s.detach th u rest c =
        { (s.unchain th u rest).linkroot (.upval u) with marked := Function.update s.marked (.upval u) (some c) } :=
      fun _ => rfl
    rw [result]
    unfold linkupval
    generalize (s.unchain th u rest).linkroot (.upval u) = s₂ at frame detached ⊢
    have thread : (s₂.thread th).openupval = rest := by
      rw [frame]
      simp [unchain]
    have marked : s₂.marked = s.marked := by rw [frame]; rfl
    have gcstate : s₂.gcstate = s.gcstate := by rw [frame]; rfl
    have currentwhite : s₂.currentwhite = s.currentwhite := by rw [frame]; rfl
    have value : s₂.upvalValue u = s.upvalValue u := by
      rw [frame]
      simp [upvalValue, unchain]
    have painted : ∀ (f : Colour → Colour) {c : Colour}, s.marked (.upval u) = some c →
        s₂.paint (.upval u) f = s.detach th u rest (f c) := by
      intro f c isColour
      rw [detached, State.paint, marked, isColour]
      rfl
    -- an upvalue that becomes white needs no barrier
    have whitened : (s.gcstate = .propagate → ¬ s.NonWhite (.upval u)) →
        Consistent nothing (s.detach th u rest (.white s.currentwhite)) ∧
        Spares s (s.detach th u rest (.white s.currentwhite)) := by
      intro white
      obtain ⟨consistent', spares⟩ := consistent.detach live.allocated openupval isLive (.inl ⟨rfl, white⟩)
      refine ⟨consistent'.discharge fun black isPending => ?_, spares⟩
      rw [isPending.1, detached] at black
      simp [State.colour] at black
    simp only
    split
    · next gray =>
      have isGray : s.marked (.upval u) = some .gray := by
        have isGray := isgray_iff.1 gray
        rwa [State.colour, marked] at isGray
      split
      · next phase =>
        rw [gcstate] at phase
        have black : s₂.gray2black (.upval u) = s.detach th u rest .black := painted _ isGray
        obtain ⟨consistent', spares⟩ := consistent.detach live.allocated openupval isLive (.inr ⟨rfl, phase⟩)
        have phase' : (s₂.gray2black (.upval u)).gcstate = .propagate := gcstate.trans phase
        have thread' : ((s₂.gray2black (.upval u)).thread th).openupval = rest := thread
        rw [value]
        rw [← black] at consistent' spares
        generalize s₂.gray2black (.upval u) = s₃ at consistent' spares phase' thread' ⊢
        have marks := barrier_marks (v := s.upvalValue u) consistent' phase' (.upval u)
        have after : Consistent nothing (s₃.barrier (.upval u) (s.upvalValue u)) :=
          consistent'.barrier (spares isLive) (fun isRef => spares (consistent.closed isLive isRef)) id
        refine ⟨after, fun {r} before => ?_, ?_⟩
        · refine after.live_of_allocated (.inr ?_) (marks.allocated.2 (spares before).allocated)
          rw [marks.background]
          exact phase'
        · rw [marks.thread]
          exact thread'
      · next phase =>
        rw [gcstate] at phase
        have white : s₂.makewhite (.upval u) = s.detach th u rest (.white s.currentwhite) := by
          rw [← currentwhite]
          exact painted _ isGray
        have thread' : ((s₂.makewhite (.upval u)).thread th).openupval = rest := thread
        rw [white] at thread' ⊢
        obtain ⟨consistent', spares⟩ := whitened fun isPropagate => absurd isPropagate phase
        exact ⟨consistent', spares, thread'⟩
    · next notGray =>
      have isWhite : s.marked (.upval u) = some (.white s.currentwhite) := by
        obtain ⟨c, isColour, notDead⟩ := isLive
        cases c with
        | black => exact absurd ⟨u, th, level, rfl, kind⟩ (consistent.notOpen isColour)
        | gray =>
          refine absurd (isgray_iff.2 ?_) notGray
          rw [State.colour, marked]
          exact isColour
        | white bit =>
          have same : bit = s.currentwhite := by
            revert notDead
            cases bit <;> cases s.currentwhite <;> simp
          exact same ▸ isColour
      have white : s₂ = s.detach th u rest (.white s.currentwhite) := by
        rw [detached, ← isWhite, Function.update_eq_self, ← marked]
      rw [white] at thread ⊢
      obtain ⟨consistent', spares⟩ := whitened fun _ nonWhite => nonWhite.ne_white _ isWhite
      exact ⟨consistent', spares, thread⟩

theorem closeLoop_consistent (level : Nat) (us : List Nat) : ∀ {s : State N}, Consistent nothing s →
    s.Live (.thread th) → (s.thread th).openupval = us →
    Consistent nothing (s.closeLoop th level us) ∧ Spares s (s.closeLoop th level us) := by
  induction us with
  | nil => exact fun consistent _ _ => ⟨consistent, id⟩
  | cons u us inductionHypothesis =>
    intro s consistent live openupval
    unfold closeLoop
    split
    · obtain ⟨consistent₁, spares₁, openupval₁⟩ := closeupval_consistent consistent live openupval
      obtain ⟨consistent', spares'⟩ := inductionHypothesis consistent₁ (spares₁ live) openupval₁
      exact ⟨consistent', fun before => spares' (spares₁ before)⟩
    · exact ⟨consistent, id⟩

/-- `gafqF_close`. -/
theorem close_consistent (level : Nat) (consistent : Consistent nothing s) (live : s.Live (.thread th)) :
    Consistent nothing (s.close th level) :=
  (closeLoop_consistent level _ consistent live rfl).1

end Closing

end Gafq.GC.State
