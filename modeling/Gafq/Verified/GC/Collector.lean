import Gafq.Verified.GC.Sweep

/-! # The steps of the collector

`singlestep` keeps the invariant in every phase and frees nothing that can be reached.
-/

namespace Gafq.GC.State

variable {N : Type} {s s' : State N} {o p r : GCRef} {pending : GCRef → GCRef → Prop}

/-! ## Lists and phases -/

theorem refers_relink (s : State N) (strt : List (List Nat)) (sweepstrgc : Nat) (swept unswept : List GCRef)
    (tmudata : List Nat) (gcstate : GCPhase) :
    ({ s with strt, sweepstrgc, swept, unswept, tmudata, gcstate } : State N).Refers = s.Refers := by
  funext o r
  cases o <;> rfl

/-- The objects are linked in another way, or another phase begins. -/
theorem Consistent.relink (consistent : Consistent pending s) {strt : List (List Nat)} {sweepstrgc : Nat}
    {swept unswept : List GCRef} {tmudata : List Nat} {gcstate : GCPhase}
    (owned : ({ s with strt, sweepstrgc, swept, unswept, tmudata, gcstate } : State N).Owned)
    (linked : ({ s with strt, sweepstrgc, swept, unswept, tmudata, gcstate } : State N).Linked)
    (fewer : ∀ {u}, u ∈ tmudata → u ∈ s.tmudata)
    (clean : ∀ {r}, s.Pending r → s.colour r = some (.white s.currentwhite) ∨ s.colour r = none ∨
      ({ s with strt, sweepstrgc, swept, unswept, tmudata, gcstate } : State N).Pending r)
    (propagate : gcstate = .propagate → s.gcstate = .propagate)
    (noneLeft : gcstate = .pause ∨ gcstate = .propagate → tmudata = []) :
    Consistent pending { s with strt, sweepstrgc, swept, unswept, tmudata, gcstate } := by
  have refers := refers_relink s strt sweepstrgc swept unswept tmudata gcstate
  refine ⟨owned, linked, fun live after => ?_, fun root => consistent.root (root.congr rfl rfl rfl rfl),
    fun member => consistent.tmudata (fewer member), consistent.fixed, consistent.notOpen, fun {r c} colour => ?_,
    fun phase => ?_, fun phase => consistent.marked (propagate phase), noneLeft⟩
  · rw [refers] at after
    exact consistent.closed live after
  · refine (consistent.clean colour).elim .inl fun isPending => ?_
    obtain white | freed | isPending := clean isPending
    · exact .inl (Option.some.inj (colour.symm.trans white))
    · exact nomatch colour.symm.trans freed
    · exact .inr isPending
  · have marking := consistent.marking (propagate phase)
    refine ⟨marking.noDead, fun black holds => marking.black black ?_, marking.notBlack, marking.gray, marking.listed⟩
    obtain after | key := holds
    · exact .inl (refers ▸ after)
    · exact .inr key

/-- Another phase begins. -/
theorem Consistent.setPhase (consistent : Consistent pending s) {gcstate : GCPhase}
    (clean : ∀ {r}, s.Pending r → s.colour r = some (.white s.currentwhite) ∨ s.colour r = none ∨
      ({ s with gcstate } : State N).Pending r)
    (propagate : gcstate = .propagate → s.gcstate = .propagate)
    (noneLeft : gcstate = .pause ∨ gcstate = .propagate → s.tmudata = []) : Consistent pending { s with gcstate } :=
  have owned := consistent.owned
  have linked := consistent.linked
  consistent.relink ⟨owned.string, owned.udata, owned.traversable, owned.closedUpval, owned.openUpval, owned.openNodup,
    owned.openList, owned.buckets⟩ ⟨linked.nodup, linked.allocated, linked.notString, linked.strings,
      linked.interned⟩ id clean propagate noneLeft

/-! ## The string table -/

theorem resizestrt_consistent (consistent : Consistent pending s) {newsize : Nat} (positive : 0 < newsize) :
    Consistent pending (s.resizestrt newsize) := by
  unfold resizestrt
  split
  · exact consistent
  · next phase =>
    obtain ⟨length, perm⟩ := @chainAll_perm (s.bucket newsize) s.strt.flatten (List.replicate newsize []) fun a => by
      rw [List.length_replicate]
      exact lmod_lt positive
    rw [List.flatten_replicate_nil, List.append_nil] at perm
    have owned := consistent.owned
    have linked := consistent.linked
    refine consistent.relink ⟨fun present => perm.mem_iff.2 (owned.string present), owned.udata, owned.traversable,
      owned.closedUpval, owned.openUpval, owned.openNodup, owned.openList, ?_⟩
      ⟨linked.nodup, linked.allocated, linked.notString, perm.nodup_iff.2 linked.strings,
        fun member => linked.interned (perm.mem_iff.1 member)⟩ id (fun isPending => .inr (.inr ?_)) id consistent.noneLeft
    · rw [length, List.length_replicate]
      exact positive
    · exact isPending.mono rfl id id (fun isSweep => absurd isSweep phase) fun _ kind => kind

theorem resizestrt_frame (s : State N) (newsize : Nat) :
    s.resizestrt newsize = { s with strt := (s.resizestrt newsize).strt } := by
  unfold resizestrt
  split <;> rfl

theorem checkSizes_consistent (consistent : Consistent pending s) :
    Consistent pending s.checkSizes ∧ s.checkSizes = { s with strt := s.checkSizes.strt } := by
  unfold checkSizes
  split
  · next crowded =>
    refine ⟨resizestrt_consistent consistent ?_, resizestrt_frame s _⟩
    simp only [minStrTabSize] at crowded
    omega
  · exact ⟨consistent, rfl⟩

/-! ## Userdata -/

theorem insertAfter_perm {main o : GCRef} {list : List GCRef} (member : main ∈ list) :
    (insertAfter main o list).Perm (o :: list) := by
  induction list with
  | nil => cases member
  | cons q rest inductionHypothesis =>
    unfold insertAfter
    split
    · exact List.Perm.swap o q rest
    · next other =>
      have inRest := (List.mem_cons.1 member).resolve_left fun same => other same.symm
      exact ((inductionHypothesis inRest).cons q).trans (List.Perm.swap o q rest)

theorem linkudata_frame (s : State N) (u : Nat) :
    s.linkudata u = { s with swept := (s.linkudata u).swept, unswept := (s.linkudata u).unswept } := by
  unfold linkudata
  simp only
  split
  · rfl
  · split <;> rfl

theorem linkudata_rootgc {u : Nat} (member : .thread s.mainthread ∈ s.rootgc) :
    (s.linkudata u).rootgc.Perm (.udata u :: s.rootgc) ∧ ∀ {o}, o ∈ s.unswept → o ∈ (s.linkudata u).unswept := by
  unfold linkudata
  simp only
  split
  · exact ⟨List.perm_middle, List.mem_cons_of_mem _⟩
  · split
    · next inSwept => exact ⟨(insertAfter_perm inSwept).append_right _, id⟩
    · next notSwept =>
      have perm : (insertAfter (.thread s.mainthread) (.udata u) s.unswept).Perm (.udata u :: s.unswept) :=
        insertAfter_perm ((List.mem_append.1 member).resolve_left notSwept)
      refine ⟨(perm.append_left s.swept).trans List.perm_middle, fun inList => ?_⟩
      exact perm.mem_iff.2 (List.mem_cons_of_mem _ inList)

theorem gettm_live {a name : Nat} (consistent : Consistent pending s) (live : s.Live (.table a))
    (isRef : gcvalue (s.gettm a name) = some r) : s.Live r := by
  unfold gettm at isRef
  simp only at isRef
  split at isRef
  · next i found =>
    have inside : i < (s.table a).h.sizenode := List.mem_range.1 (List.mem_of_find?_eq_some found)
    refine consistent.closed live (.inr (.inr ⟨i, inside, ?_, .inr isRef⟩))
    rintro isNil
    rw [isNil] at isRef
    cases isRef
  · cases isRef

theorem makewhite_spares (s : State N) (o : GCRef) : Spares s (s.makewhite o) := by
  intro r live
  by_cases self : r = o
  · subst self
    exact live_of_white (makewhite_colour live.allocated)
  · have same : (s.makewhite o).colour r = s.colour r := by rw [colour_makewhite, if_neg self]
    unfold Live
    rw [same]
    exact live

/-- A userdata leaves the list `tmudata`. -/
theorem Consistent.unlinkTm {u : Nat} {rest : List Nat} (consistent : Consistent nothing s) (phase : s.gcstate = .finalize)
    (tmudata : s.tmudata = u :: rest) :
    let s' := (({ s with tmudata := rest } : State N).linkudata u).makewhite (.udata u)
    Consistent nothing s' ∧ Spares s s' ∧ s'.Live (.udata u) := by
  intro s'
  have live := consistent.tmudata (u := u) (by rw [tmudata]; exact List.mem_cons_self)
  have painted : Consistent nothing (s.makewhite (.udata u)) :=
    consistent.makewhite (by rw [phase]; nofun) live
  have white := makewhite_colour live.allocated
  have main : .thread s.mainthread ∈ s.rootgc := consistent.owned.traversable trivial (consistent.root .mainthread).allocated
  obtain ⟨perm, unswept⟩ := @linkudata_rootgc _ ({ s with tmudata := rest } : State N) u main
  have frame := linkudata_frame ({ s with tmudata := rest } : State N) u
  have result : (({ s with tmudata := rest } : State N).linkudata u).makewhite (.udata u) =
      { s.makewhite (.udata u) with
        swept := (({ s with tmudata := rest } : State N).linkudata u).swept
        unswept := (({ s with tmudata := rest } : State N).linkudata u).unswept, tmudata := rest } := by
    rw [frame]
    rfl
  have spares : Spares s s' := by
    intro r before
    rw [show s' = _ from result]
    exact makewhite_spares s (.udata u) before
  refine ⟨?_, spares, spares live⟩
  rw [show s' = _ from result]
  clear_value s'
  clear spares
  generalize (({ s with tmudata := rest } : State N).linkudata u).swept = swept at *
  have root : ∀ {o}, o ∈ swept ++ (({ s with tmudata := rest } : State N).linkudata u).unswept ↔
      o = .udata u ∨ o ∈ s.rootgc := by
    intro o
    rw [frame] at perm
    exact perm.mem_iff.trans List.mem_cons
  have nodup : ((swept ++ (({ s with tmudata := rest } : State N).linkudata u).unswept) ++
      rest.map GCRef.udata).Nodup := by
    have before := consistent.linked.nodup
    rw [tmudata, List.map_cons] at before
    rw [frame] at perm
    exact ((perm.append_right _).trans List.perm_middle.symm).nodup_iff.2 before
  generalize (({ s with tmudata := rest } : State N).linkudata u).unswept = unswept₁ at *
  have owned := painted.owned
  have linked := painted.linked
  refine painted.relink ⟨owned.string, fun {a} present => ?_, fun traversable present => ?_, fun present kind => ?_,
    owned.openUpval, owned.openNodup, owned.openList, owned.buckets⟩ 
      ⟨nodup, fun {o} member => ?_, fun {a} member => ?_, linked.strings, linked.interned⟩
    (fun member => ?_) (fun {r} isPending => ?_) (fun isPropagate => ?_) fun either => ?_
  · obtain inRoot | isTm := owned.udata present
    · exact .inl (root.2 (.inr inRoot))
    · have isTm : a ∈ u :: rest := tmudata ▸ isTm
      cases List.mem_cons.1 isTm with
      | inl head => exact .inl (root.2 (.inl (head ▸ rfl)))
      | inr tail => exact .inr tail
  · exact root.2 (.inr (owned.traversable traversable present))
  · exact root.2 (.inr (owned.closedUpval present kind))
  · obtain rfl | inRoot := root.1 member
    · refine ⟨painted.tmudata (show u ∈ s.tmudata by rw [tmudata]; exact List.mem_cons_self) |>.allocated, ?_⟩
      rintro ⟨v, th, level, isUpval, -⟩
      cases isUpval
    · exact linked.allocated inRoot
  · obtain isUdata | inRoot := root.1 member
    · cases isUdata
    · exact linked.notString inRoot
  · exact tmudata ▸ List.mem_cons_of_mem _ member
  · have phase' : (s.makewhite (.udata u)).gcstate = .finalize := phase
    unfold Pending at isPending ⊢
    rw [phase'] at isPending
    simp only [phase']
    obtain ⟨v, rfl, isTm⟩ := isPending
    have isTm : v ∈ u :: rest := tmudata ▸ isTm
    cases List.mem_cons.1 isTm with
    | inl head =>
      subst head
      exact .inl white
    | inr tail => exact .inr (.inr ⟨v, rfl, tail⟩)
  · exact isPropagate
  · have phase' : (s.makewhite (.udata u)).gcstate = .finalize := phase
    rw [phase'] at either
    exact either.elim nofun nofun

theorem gcmethod_live {u : Nat} (consistent : Consistent pending s) (live : s.Live (.udata u))
    (isRef : gcvalue (s.gcmethod u) = some r) : s.Live r := by
  unfold gcmethod at isRef
  split at isRef
  · next a isMetatable =>
    refine gettm_live consistent (consistent.closed live ?_) isRef
    exact mem_udata_refs.2 (.inl ⟨a, isMetatable, rfl⟩)
  · cases isRef

theorem gctm_consistent (consistent : Consistent nothing s) (phase : s.gcstate = .finalize) :
    Consistent nothing s.gctm ∧ Spares s s.gctm := by
  unfold gctm
  cases tmudata : s.tmudata with
  | nil => exact ⟨consistent, id⟩
  | cons u rest =>
    obtain ⟨unlinked, spares, live⟩ := consistent.unlinkTm phase tmudata
    simp only
    generalize (({ s with tmudata := rest } : State N).linkudata u).makewhite (.udata u) = s₁ at unlinked spares live ⊢
    split
    · exact ⟨unlinked, spares⟩
    · have first : Consistent nothing (s₁.push s₁.running (s₁.gcmethod u)) :=
        push_consistent unlinked (gcmethod_live unlinked live)
      refine ⟨push_consistent first fun isRef => ?_, spares⟩
      cases isRef
      exact live

/-! ## The mark phase -/

/-- The userdata that wait for their finalizers may have the marks of the cycle before. -/
def Waiting (s : State N) (o _r : GCRef) : Prop := ∃ u ∈ s.tmudata, o = .udata u

/-- A mark phase.  A full collection may begin one while there are userdata in the list `tmudata`. -/
structure Underway (s : State N) : Prop where
  sound : s.Sound
  marking : Marking Postponed s.Waiting s
  fixed : ∀ {r}, s.fixed r = true → r.IsString ∨ r = .thread s.mainthread
  marked : s.NonWhite (.thread s.mainthread) ∧ s.NonWhite (.table s.registry)
  present : ∀ {r}, s.Root r → s.colour r ≠ none
  waiting : ∀ u ∈ s.tmudata, s.colour (.udata u) ≠ none

theorem Marking.setPending {waits : State N → GCRef → Prop} {pending' : GCRef → GCRef → Prop}
    (marking : Marking waits pending s) (pendings : ∀ {o r}, pending o r → pending' o r) : Marking waits pending' s :=
  ⟨marking.noDead, fun black holds => (marking.black black holds).imp id pendings, marking.notBlack, marking.gray,
    marking.listed⟩

theorem Consistent.underway (consistent : Consistent nothing s) (phase : s.gcstate = .propagate) : s.Underway where
  sound := consistent.sound (.inr phase)
  marking := (consistent.marking phase).setPending nofun
  fixed := consistent.fixed
  marked := consistent.marked phase
  present root := (consistent.root root).allocated
  waiting _ member := (consistent.tmudata member).allocated

/-- Every state of a mark phase in which no userdata wait for their finalizers. -/
theorem Underway.consistent (underway : s.Underway) (phase : s.gcstate = .propagate) (noneLeft : s.tmudata = []) :
    Consistent nothing s := by
  have marking : Marking Postponed nothing s := underway.marking.setPending fun waiting => by
    obtain ⟨u, member, -⟩ := waiting
    rw [noneLeft] at member
    cases member
  have live : ∀ {r}, s.colour r ≠ none → s.Live r := by
    intro r allocated
    obtain ⟨c, colour⟩ := Option.ne_none_iff_exists'.1 allocated
    exact ⟨c, colour, fun isDead => marking.noDead (isDead ▸ colour)⟩
  have sound := underway.sound
  refine ⟨sound.owned, sound.linked, fun isLive refers => live (sound.grounded.allocated isLive.allocated refers),
    fun root => live (underway.present root), fun member => ?_, underway.fixed, fun black => (marking.notBlack black).2,
    fun _ => .inr ?_, fun _ => marking, fun _ => underway.marked, fun _ => noneLeft⟩
  · rw [noneLeft] at member
    cases member
  · unfold Pending
    rw [phase]
    trivial

theorem Grounded.setPhase (grounded : s.Grounded) (gcstate : GCPhase) : ({ s with gcstate } : State N).Grounded :=
  ⟨fun {o r} present refers => grounded.allocated (o := o) (r := r) present (by cases o <;> exact refers)⟩

theorem markroot_underway (consistent : Consistent nothing s) (phase : s.gcstate = .pause ∨ s.gcstate = .finalize)
    (notGray : s.NoGrayUdata) :
    s.markroot.Underway ∧ Keeps s s.markroot ∧ s.markroot.tmudata = s.tmudata := by
  have white : ∀ {r c}, s.colour r = some c → c = .white s.currentwhite ∨ ∃ u ∈ s.tmudata, r = .udata u := by
    intro r c colour
    refine (consistent.clean colour).imp id fun isPending => ?_
    unfold Pending at isPending
    obtain isPause | isFinalize := phase
    · rw [isPause] at isPending
      exact absurd isPending id
    · rw [isFinalize] at isPending
      obtain ⟨u, same, member⟩ := isPending
      exact ⟨u, member, same⟩
  have live : ∀ {r}, s.colour r ≠ none → s.Live r := by
    intro r allocated
    obtain ⟨c, colour⟩ := Option.ne_none_iff_exists'.1 allocated
    obtain rfl | ⟨u, member, rfl⟩ := white colour
    · exact live_of_white colour
    · exact consistent.tmudata member
  have sound₀ : s.Sound := ⟨consistent.owned,
    ⟨fun allocated refers => (consistent.closed (live allocated) refers).allocated⟩, consistent.linked⟩
  have sound := sound₀.setLists [] [] []
  have start : Marking Postponed s.Waiting { s with gray := [], grayagain := [], weak := [] } := by
    refine ⟨fun {r} dead => ?_, fun {o r} black _ => ?_, fun {o} black => ?_, fun {o} gray => ?_, fun listed => ?_⟩
    · have notDead := (live (r := r) (by rw [show s.colour r = _ from dead]; rintro ⟨⟩)).not_dead
      simp only [isdead, show s.colour r = _ from dead, beq_self_eq_true] at notDead
      cases notDead
    · exact .inr ((white (r := o) black).resolve_left (by rintro ⟨⟩))
    · obtain ⟨u, -, rfl⟩ := (white (r := o) black).resolve_left (by rintro ⟨⟩)
      refine ⟨by rintro _ ⟨⟩, ?_⟩
      rintro ⟨v, th, level, isUpval, -⟩
      cases isUpval
    · obtain ⟨u, -, rfl⟩ := (white (r := o) gray).resolve_left (by rintro ⟨⟩)
      exact absurd gray (notGray u)
    · simp at listed
  have present : ∀ {r}, s.Root r → s.colour r ≠ none := fun root => (consistent.root root).allocated
  have waiting : ∀ u ∈ s.tmudata, s.colour (.udata u) ≠ none := fun u member => (consistent.tmudata member).allocated
  have fixed := @Consistent.fixed _ _ _ consistent
  have emptied : Keeps s { s with gray := [], grayagain := [], weak := [] } :=
    ⟨fun root => root.congr rfl rfl rfl rfl, fun _ => Iff.rfl, id, rfl, rfl, .of_eq (refers_congr rfl rfl rfl) rfl rfl rfl rfl,
      rfl⟩
  unfold markroot
  simp only
  have start₀ : ({ s with gray := [], grayagain := [], weak := [] } : State N).toBackground = s.toBackground := rfl
  have colour₀ : ({ s with gray := [], grayagain := [], weak := [] } : State N).colour = s.colour := rfl
  generalize ({ s with gray := [], grayagain := [], weak := [] } : State N) = s₀ at *
  have first := markobject_marks sound.grounded (.thread s.mainthread)
  generalize s₀.markobject (.thread s.mainthread) = s₁ at *
  have second := markvalue_marks (first.toMarks.grounded sound.grounded) (s₁.thread s₁.mainthread).gt
  generalize s₁.markvalue (s₁.thread s₁.mainthread).gt = s₂ at *
  have third := marktable_marks s₂ s₂.registry
  generalize s₂.marktable s₂.registry = s₃ at *
  have fourth := (markmt_marks s₃).1
  generalize s₃.markmt = s₄ at *
  have early := first.toMarks.trans second.toMarks
  have late := third.toMarks.trans fourth
  have marks := early.trans late
  have background : s₄.toBackground = s.toBackground := marks.background.trans start₀
  have tmudata : s₄.tmudata = s.tmudata := by rw [background]
  have marking := start.marks postponed_stable marks .inr
  have sound' := marks.sound sound
  have refers : ({ s₄ with gcstate := .propagate } : State N).Holds = s₄.Holds := by
    funext o r
    cases o <;> rfl
  have phased : Keeps s₄ { s₄ with gcstate := .propagate } :=
    ⟨fun root => root.congr rfl rfl rfl rfl, fun _ => Iff.rfl, id, rfl, rfl,
      .of_eq (by funext o r; cases o <;> rfl) rfl rfl rfl rfl, rfl⟩
  have keeps := emptied.trans (marks.advances.keeps.trans phased)
  refine ⟨⟨⟨?_, sound'.grounded.setPhase _, ?_⟩, ?_, ?_, ⟨?_, ?_⟩, fun root => ?_, fun u member => ?_⟩, keeps, tmudata⟩
  · have owned := sound'.owned
    exact ⟨owned.string, owned.udata, owned.traversable, owned.closedUpval, owned.openUpval, owned.openNodup,
      owned.openList, owned.buckets⟩
  · exact ⟨sound'.linked.nodup, sound'.linked.allocated, sound'.linked.notString, sound'.linked.strings,
      sound'.linked.interned⟩
  · refine ⟨marking.noDead, fun black holds => (marking.black black (refers ▸ holds)).imp id fun waits => ?_,
      marking.notBlack, marking.gray, marking.listed⟩
    obtain ⟨u, member, same⟩ := waits
    exact ⟨u, tmudata ▸ member, same⟩
  · intro r isFixed
    rw [show s.fixed = _ from keeps.fixed.symm, ← keeps.mainthread] at fixed
    exact fixed isFixed
  · have isMain : s₄.mainthread = s.mainthread := by rw [background]
    have nonWhite := first.marked (by rw [colour₀]; exact present .mainthread)
    show s₄.NonWhite (.thread s₄.mainthread)
    rw [isMain]
    exact late.nonWhite (second.toMarks.nonWhite nonWhite)
  · have isRegistry : s₄.registry = s.registry := by rw [background]
    have same : s₂.registry = s.registry := by rw [early.background, start₀]
    show s₄.NonWhite (.table s₄.registry)
    rw [isRegistry]
    rw [same] at third
    refine fourth.nonWhite (third.marked (early.allocated.2 ?_))
    rw [colour₀]
    exact present .registry
  · exact (keeps.allocated _).2 (present (keeps.root root))
  · exact (keeps.allocated _).2 (waiting u (tmudata ▸ member))

/-- At the beginning of a cycle everything is white. -/
theorem Consistent.noGrayUdata (consistent : Consistent pending s) (phase : s.gcstate = .pause) : s.NoGrayUdata := by
  intro u isGray
  obtain same | isPending := consistent.clean isGray
  · cases same
  · unfold Pending at isPending
    rw [phase] at isPending
    exact isPending

theorem markroot_consistent (consistent : Consistent nothing s) (phase : s.gcstate = .pause) :
    Consistent nothing s.markroot ∧ ∀ r, s.markroot.colour r ≠ none ↔ s.colour r ≠ none := by
  obtain ⟨underway, keeps, tmudata⟩ := markroot_underway consistent (.inl phase) (consistent.noGrayUdata phase)
  exact ⟨underway.consistent rfl (tmudata.trans (consistent.noneLeft (.inl phase))), keeps.allocated⟩

theorem propagatemark_underway {rest : List GCRef} (underway : s.Underway) (isGray : s.gray = o :: rest) :
    s.propagatemark.Underway ∧ Keeps s s.propagatemark ∧ s.propagatemark.tmudata = s.tmudata ∧
      s.propagatemark.gcstate = s.gcstate := by
  have marking := underway.marking
  have sound := underway.sound
  obtain ⟨traversable, nonWhite⟩ := @Marking.listed _ _ _ _ marking o (.inl (isGray ▸ List.mem_cons_self))
  obtain ⟨traverses, -⟩ := propagatemark_spec sound.grounded isGray traversable nonWhite
  have nonWhite₀ : ({ s with gray := rest } : State N).NonWhite o := nonWhite
  have after := (traverses.self nonWhite₀).allocated
  have unlisted : Keeps s { s with gray := rest } :=
    ⟨fun root => root.congr rfl rfl rfl rfl, fun _ => Iff.rfl, id, rfl, rfl, .of_eq (refers_congr rfl rfl rfl) rfl rfl rfl rfl,
      rfl⟩
  have keeps : Keeps s s.propagatemark := unlisted.trans (traverses.advances nonWhite₀.allocated after).keeps
  have background : s.propagatemark.toBackground = s.toBackground := traverses.background
  have tmudata : s.propagatemark.tmudata = s.tmudata := by rw [background]
  have marking' : Marking Postponed s.Waiting s.propagatemark := marking.propagatemark postponed_stable sound.grounded isGray
  refine ⟨⟨traverses.sound nonWhite₀.allocated after (sound.setGray rest), marking'.setPending ?_, ?_, ?_, fun root => ?_,
    fun u member => ?_⟩, keeps, tmudata, by rw [background]⟩
  · rintro o r ⟨u, member, same⟩
    exact ⟨u, tmudata ▸ member, same⟩
  · rw [keeps.fixed, keeps.mainthread]
    exact underway.fixed
  · rw [background]
    exact underway.marked.imp keeps.nonWhite keeps.nonWhite
  · exact (keeps.allocated _).2 (underway.present (keeps.root root))
  · exact (keeps.allocated _).2 (underway.waiting u (tmudata ▸ member))

theorem propagatemark_consistent {rest : List GCRef} (consistent : Consistent nothing s) (phase : s.gcstate = .propagate)
    (isGray : s.gray = o :: rest) :
    Consistent nothing s.propagatemark ∧ ∀ r, s.propagatemark.colour r ≠ none ↔ s.colour r ≠ none := by
  obtain ⟨underway, keeps, tmudata, gcstate⟩ := propagatemark_underway (consistent.underway phase) isGray
  exact ⟨underway.consistent (gcstate.trans phase) (tmudata.trans (consistent.noneLeft (.inr phase))), keeps.allocated⟩

/-- When a sweep begins it will come to all objects. -/
theorem Owned.allPending (owned : s.Owned) (phase : s.gcstate = .sweepstring) (swept : s.swept = [])
    (sweepstrgc : s.sweepstrgc = 0) (present : s.colour r ≠ none) : s.Pending r := by
  have inRoot : ∀ {o}, o ∈ s.rootgc → o ∈ s.unswept := by
    intro o member
    rwa [rootgc, swept, List.nil_append] at member
  unfold Pending
  simp only [phase]
  cases r with
  | string a =>
    refine .inr ⟨a, rfl, ?_⟩
    rw [sweepstrgc]
    exact owned.string present
  | udata u => exact .inl ((owned.udata present).imp inRoot fun member => .inl ⟨u, rfl, member⟩)
  | upval u =>
    cases kind : s.upval u with
    | closed v => exact .inl (.inl (inRoot (owned.closedUpval present kind)))
    | inStack th level =>
      obtain ⟨-, -, thread⟩ := owned.openUpval present kind
      exact .inl (.inr (.inr ⟨u, th, level, rfl, kind, inRoot (owned.traversable trivial thread)⟩))
  | proto | closure | table | thread => exact .inl (.inl (inRoot (owned.traversable trivial present)))

/-- After the mark phase the objects that were not marked are dead. -/
theorem atomic_consistent (underway : s.Underway) :
    Consistent nothing s.atomic ∧ (∀ r, s.atomic.colour r ≠ none ↔ s.colour r ≠ none) ∧ s.atomic.NoGrayUdata ∧
      (∀ r, s.atomic.Live r ↔ s.finishMarking.NonWhite r) ∧ s.finishMarking.Marked ∧ Keeps s s.finishMarking := by
  obtain ⟨marked, keeps⟩ := finishMarking_marked underway.sound underway.marking id underway.waiting underway.marked
    underway.present
  have fixed : ∀ {r}, s.finishMarking.fixed r = true → r.IsString ∨ r = .thread s.finishMarking.mainthread := by
    rw [keeps.fixed, keeps.mainthread]
    exact underway.fixed
  rw [atomic_eq]
  generalize s.finishMarking = s₁ at marked keeps fixed ⊢
  generalize flipped : ({ s₁ with
    currentwhite := !s₁.currentwhite, sweepstrgc := 0, swept := [], unswept := s₁.rootgc
    gcstate := .sweepstring } : State N) = s'
  have rootgc : s'.rootgc = s₁.rootgc := by rw [← flipped]; rfl
  have colour : s'.colour = s₁.colour := by rw [← flipped]; rfl
  have refers : s'.Refers = s₁.Refers := by
    rw [← flipped]
    funext o r
    cases o <;> rfl
  have isOpen : s'.IsOpen = s₁.IsOpen := by rw [← flipped]; rfl
  -- after the flip, the objects that have not been marked are dead
  have live : ∀ {r}, s'.Live r ↔ s₁.NonWhite r := by
    intro r
    constructor
    · rintro ⟨c, isColour, alive⟩
      rw [colour] at isColour
      refine nonWhite_of_not_white (by rw [isColour]; nofun) (Bool.eq_false_iff.2 fun white => ?_)
      obtain ⟨bit, isWhite⟩ := iswhite_iff.1 white
      rw [isWhite] at isColour
      cases isColour
      have notOther : bit ≠ !s₁.currentwhite := fun same => marked.noDead (same ▸ isWhite)
      rw [← flipped] at alive
      simp only [Bool.not_not, ne_eq, Colour.white.injEq] at alive
      revert alive notOther
      cases bit <;> cases s₁.currentwhite <;> decide
    · exact fun nonWhite => ((nonWhite_congr (by rw [colour])).2 nonWhite).live
  have owned : s'.Owned := by
    have owned := marked.sound.owned
    rw [← flipped]
    exact ⟨owned.string, owned.udata, owned.traversable, owned.closedUpval, owned.openUpval, owned.openNodup,
      owned.openList, owned.buckets⟩
  have linked := marked.sound.linked
  refine ⟨⟨owned, ⟨?_, ?_, ?_, ?_, ?_⟩, fun isLive after => ?_, fun root => ?_, fun member => ?_, ?_, ?_,
    fun {r c} isColour => .inr ?_, ?_, ?_, ?_⟩, fun r => by rw [colour]; exact keeps.allocated r, ?_, fun _ => live, marked, keeps⟩
  · rw [← flipped]
    exact linked.nodup
  · rw [colour, isOpen, rootgc]
    exact linked.allocated
  · rw [rootgc]
    exact linked.notString
  · rw [← flipped]
    exact linked.strings
  · rw [colour, ← flipped]
    exact linked.interned
  · rw [refers] at after
    exact live.2 (marked.closed (live.1 isLive) after)
  · refine live.2 (marked.root ?_)
    rw [← flipped] at root
    exact root.congr rfl rfl rfl rfl
  · refine live.2 (marked.tmudata ?_)
    rw [← flipped] at member
    exact member
  · rw [← flipped]
    exact fixed
  · rw [colour, isOpen]
    exact marked.notOpen
  · have present : s'.colour r ≠ none := by
      rw [isColour]
      nofun
    exact owned.allPending (by rw [← flipped]) (by rw [← flipped]) (by rw [← flipped]) present
  · rw [← flipped]
    nofun
  · rw [← flipped]
    nofun
  · rw [← flipped]
    nofun
  · intro u isGray
    rw [colour] at isGray
    exact marked.notGray u isGray

/-! ## `singlestep` -/

theorem beginSweep_consistent (consistent : Consistent nothing s) (phase : s.gcstate = .sweepstring)
    (done : s.strt.length ≤ s.sweepstrgc) : Consistent nothing { s with gcstate := .sweep } := by
  refine consistent.setPhase (fun {r} isPending => .inr (.inr ?_)) nofun fun either => either.elim nofun nofun
  unfold Pending at isPending
  rw [phase] at isPending
  obtain ahead | ⟨a, rfl, member⟩ := isPending
  · exact ahead.mono id id fun _ kind => kind
  · rw [List.drop_eq_nil_of_le done] at member
    cases member

theorem beginFinalize_consistent (consistent : Consistent nothing s) (phase : s.gcstate = .sweep)
    (done : s.unswept = []) : Consistent nothing { s with gcstate := .finalize } := by
  refine consistent.setPhase (fun {r} isPending => .inr (.inr ?_)) nofun fun either => either.elim nofun nofun
  unfold Pending at isPending
  rw [phase] at isPending
  obtain member | tmudata | ⟨u, th, level, rfl, kind, member⟩ := isPending
  · rw [done] at member
    cases member
  · exact tmudata
  · rw [done] at member
    cases member

theorem beginPause_consistent (consistent : Consistent nothing s) (phase : s.gcstate = .finalize)
    (done : s.tmudata = []) : Consistent nothing { s with gcstate := .pause } := by
  refine consistent.setPhase (fun {r} isPending => ?_) nofun fun _ => done
  unfold Pending at isPending
  rw [phase] at isPending
  obtain ⟨u, rfl, member⟩ := isPending
  rw [done] at member
  cases member

/-- A step of the collector keeps the invariant and frees no live object. -/
theorem singlestep_consistent (consistent : Consistent nothing s) :
    Consistent nothing s.singlestep ∧ ∀ {r}, s.Live r → s.singlestep.colour r ≠ none := by
  unfold singlestep
  cases phase : s.gcstate with
  | pause =>
    obtain ⟨after, allocated⟩ := markroot_consistent consistent phase
    exact ⟨after, fun live => (allocated _).2 live.allocated⟩
  | propagate =>
    simp only
    split
    · obtain ⟨after, allocated, -⟩ := atomic_consistent (consistent.underway phase)
      exact ⟨after, fun live => (allocated _).2 live.allocated⟩
    · next notEmpty =>
      obtain ⟨o, rest, isGray⟩ : ∃ o rest, s.gray = o :: rest :=
        List.exists_cons_of_ne_nil fun isNil => notEmpty (by rw [isNil]; rfl)
      obtain ⟨after, allocated⟩ := propagatemark_consistent consistent phase isGray
      exact ⟨after, fun live => (allocated _).2 live.allocated⟩
  | sweepstring =>
    obtain ⟨after, reclaims, phase'⟩ := sweepbucket_consistent consistent phase
    simp only
    split
    · next done => exact ⟨beginSweep_consistent after phase' done, fun live => (reclaims.live live).allocated⟩
    · exact ⟨after, fun live => (reclaims.live live).allocated⟩
  | sweep =>
    obtain ⟨after, reclaims, phase'⟩ := sweeplist_consistent sweepMax consistent phase
    simp only
    split
    · next done =>
      obtain ⟨resized, frame⟩ := checkSizes_consistent after
      refine ⟨beginFinalize_consistent resized ?_ ?_, fun live => ?_⟩
      · rw [frame]
        exact phase'
      · rw [frame]
        exact List.isEmpty_iff.1 done
      · rw [frame]
        exact (reclaims.live live).allocated
    · exact ⟨after, fun live => (reclaims.live live).allocated⟩
  | finalize =>
    simp only
    split
    · next done =>
      exact ⟨beginPause_consistent consistent phase (List.isEmpty_iff.1 done), fun live => live.allocated⟩
    · obtain ⟨after, spares⟩ := gctm_consistent consistent phase
      exact ⟨after, fun live => (spares live).allocated⟩

end Gafq.GC.State
