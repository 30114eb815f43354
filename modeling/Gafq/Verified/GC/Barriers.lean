import Gafq.Verified.GC.Invariant

/-! # Stores and barriers

A store into an object may leave a reference from a black object to a white one; the barrier that
follows it marks the white object or makes the black one gray or white.
-/

namespace Gafq.GC.State

variable {N : Type} {s s' : State N} {o p r : GCRef} {pending pending' : GCRef → GCRef → Prop}

/-! ## Stores -/

/-- Only the contents of objects, the running thread and the metatables of basic types change. -/
structure Stores (s s' : State N) : Prop where
  frame : s' = { s with
    udata := s'.udata, proto := s'.proto, closure := s'.closure, upval := s'.upval, mt := s'.mt
    running := s'.running, table := s'.table, thread := s'.thread }
  openupval : ∀ a, (s'.thread a).openupval = (s.thread a).openupval
  upval : ∀ u th level, s'.upval u = .inStack th level ↔ s.upval u = .inStack th level

namespace Stores

theorem marked (stores : Stores s s') : s'.marked = s.marked := by rw [stores.frame]

theorem colour (stores : Stores s s') : s'.colour = s.colour := by
  funext r
  unfold State.colour
  rw [stores.marked]

theorem gcstate (stores : Stores s s') : s'.gcstate = s.gcstate := by rw [stores.frame]

theorem currentwhite (stores : Stores s s') : s'.currentwhite = s.currentwhite := by rw [stores.frame]

theorem live (stores : Stores s s') : s'.Live r ↔ s.Live r := live_congr (by rw [stores.colour]) stores.currentwhite

theorem nonWhite (stores : Stores s s') : s'.NonWhite r ↔ s.NonWhite r := nonWhite_congr (by rw [stores.colour])

theorem isOpen (stores : Stores s s') : s'.IsOpen = s.IsOpen := by
  funext o
  simp only [IsOpen, stores.upval]

theorem owned (stores : Stores s s') (owned : s.Owned) : s'.Owned := by
  have colour := stores.colour
  have strt : s'.strt = s.strt := by rw [stores.frame]
  have rootgc : s'.rootgc = s.rootgc := by
    rw [stores.frame]
    rfl
  have tmudata : s'.tmudata = s.tmudata := by rw [stores.frame]
  have uvhead : s'.uvhead = s.uvhead := by rw [stores.frame]
  constructor
  · rw [colour, strt]
    exact owned.string
  · rw [colour, rootgc, tmudata]
    exact owned.udata
  · rw [colour, rootgc]
    exact owned.traversable
  · intro u v present kind
    rw [colour] at present
    rw [rootgc]
    cases before : s.upval u with
    | closed v' => exact owned.closedUpval present before
    | inStack th level =>
      rw [(stores.upval u th level).2 before] at kind
      cases kind
  · intro u th level present kind
    rw [colour, uvhead, stores.openupval]
    rw [colour] at present
    exact owned.openUpval present ((stores.upval u th level).1 kind)
  · intro th present
    rw [stores.openupval]
    rw [colour] at present
    exact owned.openNodup present
  · intro th u present member
    rw [stores.openupval] at member
    rw [colour] at present ⊢
    obtain ⟨here, level, kind⟩ := owned.openList present member
    exact ⟨here, level, (stores.upval u th level).2 kind⟩
  · rw [strt]
    exact owned.buckets

theorem isPending (stores : Stores s s') (isPending : s.Pending r) : s'.Pending r := by
  refine isPending.mono stores.gcstate ?_ ?_ ?_ fun _ kind => (stores.upval _ _ _).2 kind
  · rw [stores.frame]
    exact id
  · rw [stores.frame]
    exact id
  · rw [stores.frame]
    exact fun _ _ => id

end Stores

theorem Marking.stores (marking : Marking Postponed nothing s) (stores : Stores s s')
    (holds : ∀ {o r}, s.colour o = some .black → s'.Holds o r → s.Holds o r ∨ pending o r) :
    Marking Postponed pending s' := by
  have gray : s'.gray = s.gray := by rw [stores.frame]
  have grayagain : s'.grayagain = s.grayagain := by rw [stores.frame]
  have weak : s'.weak = s.weak := by rw [stores.frame]
  constructor
  · rw [stores.colour, stores.currentwhite]
    exact marking.noDead
  · intro o r isBlack after
    rw [stores.colour] at isBlack
    obtain before | isPending := holds isBlack after
    · exact .inl (stores.nonWhite.2 ((marking.black isBlack before).resolve_right id))
    · exact .inr isPending
  · rw [stores.colour, stores.isOpen]
    exact marking.notBlack
  · intro o isGray
    rw [stores.colour] at isGray
    unfold Postponed
    rw [gray, grayagain, weak, stores.isOpen]
    exact marking.gray isGray
  · intro o listed
    rw [gray, grayagain, weak] at listed
    exact (marking.listed listed).imp id stores.nonWhite.2

/-- A store of live objects into an object. -/
theorem Consistent.stores (consistent : Consistent nothing s) (stores : Stores s s')
    (refers : ∀ {o r}, s.Live o → s'.Refers o r → s.Refers o r ∨ s.Live r)
    (root : ∀ {r}, s'.Root r → s.Root r ∨ s.Live r)
    (holds : s.gcstate = .propagate →
      ∀ {o r}, s.colour o = some .black → s'.Holds o r → s.Holds o r ∨ pending o r) : Consistent pending s' := by
  have mainthread : s'.mainthread = s.mainthread := by rw [stores.frame]
  have registry : s'.registry = s.registry := by rw [stores.frame]
  have tmudata : s'.tmudata = s.tmudata := by rw [stores.frame]
  constructor
  · exact stores.owned consistent.owned
  · constructor
    · rw [stores.frame]
      exact consistent.linked.nodup
    · rw [stores.colour, stores.isOpen, stores.frame]
      exact consistent.linked.allocated
    · rw [stores.frame]
      exact consistent.linked.notString
    · rw [stores.frame]
      exact consistent.linked.strings
    · rw [stores.colour, stores.frame]
      exact consistent.linked.interned
  · intro o r live after
    have before := stores.live.1 live
    exact stores.live.2 ((refers before after).elim (consistent.closed before) id)
  · intro r isRoot
    exact stores.live.2 ((root isRoot).elim consistent.root id)
  · intro u member
    exact stores.live.2 (consistent.tmudata (tmudata ▸ member))
  · rw [stores.frame]
    exact consistent.fixed
  · rw [stores.colour, stores.isOpen]
    exact consistent.notOpen
  · intro r c colour
    rw [stores.colour] at colour
    rw [stores.currentwhite]
    exact (consistent.clean colour).imp id stores.isPending
  · intro phase
    have before := stores.gcstate ▸ phase
    exact (consistent.marking before).stores stores (holds before)
  · intro phase
    rw [stores.nonWhite, stores.nonWhite, mainthread, registry]
    exact consistent.marked (stores.gcstate ▸ phase)
  · rw [stores.gcstate, tmudata]
    exact consistent.noneLeft

/-- A store into objects that are never black needs no barrier. -/
theorem Consistent.storesStack (consistent : Consistent nothing s) (stores : Stores s s')
    (refers : ∀ {o r}, s'.Refers o r → s.Refers o r ∨ ((∃ a, o = .thread a) ∨ s.IsOpen o) ∧ s.Live r)
    (keys : s'.table = s.table) (root : ∀ {r}, s'.Root r → s.Root r ∨ s.Live r) : Consistent nothing s' := by
  refine consistent.stores stores (fun _ after => (refers after).imp id And.right) root
    fun phase o r black holds => .inl ?_
  obtain after | ⟨a, rfl, key⟩ := holds
  · obtain before | ⟨⟨a, rfl⟩ | isOpen, -⟩ := refers after
    · exact .inl before
    · exact absurd rfl (((consistent.marking phase).notBlack black).1 a)
    · exact absurd isOpen (consistent.notOpen black)
  · rw [keys] at key
    exact .inr ⟨a, rfl, key⟩

/-! ## Colours -/

/-- References that a barrier does not have to look at. -/
theorem Consistent.discharge (consistent : Consistent pending s)
    (discharged : ∀ {o r}, s.colour o = some .black → pending o r → s.NonWhite r ∨ pending' o r) : Consistent pending' s where
  owned := consistent.owned
  linked := consistent.linked
  closed := consistent.closed
  root := consistent.root
  tmudata := consistent.tmudata
  fixed := consistent.fixed
  notOpen := consistent.notOpen
  clean := consistent.clean
  marked := consistent.marked
  noneLeft := consistent.noneLeft
  marking phase :=
    have marking := consistent.marking phase
    { marking with
      black := fun isBlack holds => (marking.black isBlack holds).elim .inl (discharged isBlack) }

/-- Marking during the mark phase. -/
theorem Consistent.marks (consistent : Consistent pending s) (phase : s.gcstate = .propagate) (marks : Marks s s')
    (discharged : ∀ {o r}, pending o r → s'.NonWhite r ∨ pending' o r) : Consistent pending' s' := by
  have background := marks.background
  have marking := (consistent.marking phase).marks postponed_stable marks discharged
  have phase' : s'.gcstate = .propagate := by rw [background, phase]
  have live : ∀ {r}, s'.colour r ≠ none → s'.Live r := by
    intro r allocated
    obtain ⟨c, colour⟩ := Option.ne_none_iff_exists'.1 allocated
    exact ⟨c, colour, fun isDead => marking.noDead (isDead ▸ colour)⟩
  have sound := marks.sound (consistent.sound (.inr phase))
  constructor
  · exact sound.owned
  · exact sound.linked
  · intro o r isLive refers
    exact live (sound.grounded.allocated isLive.allocated refers)
  · intro r isRoot
    refine live (marks.allocated.2 (consistent.root (marks.advances.root isRoot)).allocated)
  · intro u member
    rw [background] at member
    exact live (marks.allocated.2 (consistent.tmudata member).allocated)
  · rw [background]
    exact consistent.fixed
  · exact fun isBlack => (marking.notBlack isBlack).2
  · intro r c _
    refine .inr ?_
    unfold Pending
    rw [phase']
    trivial
  · exact fun _ => marking
  · intro _
    rw [background]
    exact (consistent.marked phase).imp marks.nonWhite marks.nonWhite
  · rw [background]
    exact consistent.noneLeft

/-- Another colour for one object. -/
theorem Consistent.repaint (consistent : Consistent pending s) (background : s'.toBackground = s.toBackground)
    (table : s'.table = s.table) (thread : s'.thread = s.thread)
    (others : ∀ {r}, r ≠ o → s'.colour r = s.colour r) (present : s.colour o ≠ none) (live : s'.Live o)
    (refers : ∀ {r}, s.Refers o r → s.Live r) (notOpen : s'.colour o = some .black → ¬ s.IsOpen o)
    (clean : ∀ {c}, s'.colour o = some c → c = .white s.currentwhite ∨ s.Pending o)
    (marking : s.gcstate = .propagate → Marking Postponed pending' s')
    (nonWhite : s.gcstate = .propagate → s.NonWhite o → s'.NonWhite o) : Consistent pending' s' := by
  have currentwhite : s'.currentwhite = s.currentwhite := by rw [background]
  have alive : ∀ {r}, s.Live r → s'.Live r := by
    intro r before
    by_cases self : r = o
    · subst self
      exact live
    · exact (live_congr (others self) currentwhite).2 before
  have isPending : ∀ {r}, s.Pending r → s'.Pending r := by
    intro r before
    refine before.mono ?_ ?_ ?_ ?_ ?_ <;> rw [background]
    · exact id
    · exact id
    · exact fun _ _ => id
    · exact fun _ => id
  have kept : s.gcstate = .propagate → ∀ {r}, s.NonWhite r → s'.NonWhite r := by
    intro phase r before
    by_cases self : r = o
    · subst self
      exact nonWhite phase before
    · exact (nonWhite_congr (others self)).2 before
  have allocated : ∀ r, s'.colour r ≠ none ↔ s.colour r ≠ none := by
    intro r
    by_cases self : r = o
    · subst self
      exact ⟨fun _ => present, fun _ => live.allocated⟩
    · rw [others self]
  constructor
  · exact consistent.owned.congr background (fun _ => by rw [thread]) allocated
  · exact consistent.linked.congr background allocated
  · intro p r isLive after
    rw [refers_congr background table thread] at after
    by_cases self : p = o
    · subst self
      exact alive (refers after)
    · exact alive (consistent.closed ((live_congr (others self) currentwhite).1 isLive) after)
  · intro r isRoot
    exact alive (consistent.root (isRoot.congr (by rw [background]) (by rw [background]) (by rw [background])
      (by rw [background])))
  · intro u member
    rw [background] at member
    exact alive (consistent.tmudata member)
  · rw [background]
    exact consistent.fixed
  · intro p isBlack isOpen
    have before : s.IsOpen p := by
      simp only [IsOpen, background] at isOpen
      exact isOpen
    by_cases self : p = o
    · subst self
      exact notOpen isBlack before
    · rw [others self] at isBlack
      exact consistent.notOpen isBlack before
  · intro r c colour
    rw [currentwhite]
    by_cases self : r = o
    · subst self
      exact (clean colour).imp id isPending
    · rw [others self] at colour
      exact (consistent.clean colour).imp id isPending
  · intro phase
    exact marking (by rw [← phase, background])
  · intro phase
    have before : s.gcstate = .propagate := by rw [← phase, background]
    rw [background]
    exact (consistent.marked before).imp (kept before) (kept before)
  · rw [background]
    exact consistent.noneLeft

theorem makewhite_colour (allocated : s.colour o ≠ none) : (s.makewhite o).colour o = some (.white s.currentwhite) := by
  obtain ⟨c, colour⟩ := Option.ne_none_iff_exists'.1 allocated
  rw [makewhite, colour_paint_self, colour]
  rfl

/-- `makewhite` outside the mark phase. -/
theorem Consistent.makewhite (consistent : Consistent pending s) (phase : s.gcstate ≠ .propagate) (live : s.Live o) :
    Consistent pending' (s.makewhite o) := by
  have after := makewhite_colour live.allocated
  refine consistent.repaint rfl rfl rfl (fun other => colour_paint_of_ne s _ other) live.allocated ?_
    (consistent.closed live) ?_ (fun colour => ?_) (absurd · phase) (absurd · phase)
  · exact live_of_white after
  · rw [after]
    nofun
  · rw [after] at colour
    cases colour
    exact .inl rfl

/-! ## Barriers -/

/-- The forward barrier. -/
theorem Consistent.objbarrier (consistent : Consistent pending s) (live : s.Live p) (liveChild : s.Live o)
    (only : ∀ {p' r}, pending p' r → p' = p ∧ r = o) : Consistent nothing (s.objbarrier p o) := by
  unfold State.objbarrier
  split
  · next crossing =>
    simp only [Bool.and_eq_true] at crossing
    unfold barrierf
    split
    · next phase =>
      have sound := consistent.sound (.inr phase)
      obtain ⟨marks, marked⟩ := reallymarkobject_marks sound.grounded crossing.1
      refine consistent.marks phase marks fun isPending => .inl ?_
      rw [(only isPending).2]
      exact marked
    · next phase => exact consistent.makewhite phase live
  · next clear =>
    refine consistent.discharge fun black isPending => .inl ?_
    obtain ⟨rfl, rfl⟩ := only isPending
    refine nonWhite_of_not_white liveChild.allocated ?_
    simp only [Bool.and_eq_true, not_and] at clear
    exact Bool.eq_false_iff.2 fun white => clear white (isblack_iff.2 black)

/-- `gafqC_barrier`. -/
theorem Consistent.barrier (consistent : Consistent pending s) {v : TValue N} (live : s.Live p)
    (liveValue : ∀ {r}, gcvalue v = some r → s.Live r)
    (only : ∀ {p' r}, pending p' r → p' = p ∧ gcvalue v = some r) : Consistent nothing (s.barrier p v) := by
  unfold State.barrier
  cases isRef : gcvalue v with
  | none =>
    refine consistent.discharge fun _ isPending => ?_
    have same := (only isPending).2
    rw [isRef] at same
    cases same
  | some o =>
    refine consistent.objbarrier live (liveValue isRef) fun isPending => (only isPending).imp id fun same => ?_
    rw [isRef] at same
    exact (Option.some.inj same).symm

theorem barrierback_colour {t : Nat} (black : s.colour (.table t) = some .black) :
    (s.barrierback t).colour (.table t) = some .gray :=
  black2gray_of_nonWhite (.inr black)

/-- The backward barrier takes care of all references of a table. -/
theorem Consistent.barrierback {t : Nat} (consistent : Consistent pending s)
    (black : s.colour (.table t) = some .black) (only : ∀ {p r}, pending p r → p = .table t) :
    Consistent pending' (s.barrierback t) := by
  have gray := barrierback_colour black
  have others : ∀ {r}, r ≠ .table t → (s.barrierback t).colour r = s.colour r := fun other =>
    colour_paint_of_ne s _ other
  have kept : ∀ {r}, s.NonWhite r → (s.barrierback t).NonWhite r := by
    intro r before
    by_cases self : r = .table t
    · subst self
      exact .inl gray
    · exact (nonWhite_congr (others self)).2 before
  have live : s.Live (.table t) := NonWhite.live (.inr black)
  refine consistent.repaint rfl rfl rfl others live.allocated (NonWhite.live (.inl gray)) (consistent.closed live) ?_
    (fun _ => (consistent.clean black).elim nofun .inr) (fun phase => ?_) fun _ => kept
  · rw [gray]
    nofun
  · have marking := consistent.marking phase
    have holds : (s.barrierback t).Holds = s.Holds := holds_congr rfl rfl rfl
    constructor
    · intro r
      by_cases self : r = .table t
      · subst self
        rw [gray]
        nofun
      · rw [others self]
        exact marking.noDead
    · intro p r isBlack after
      have self : p ≠ .table t := by
        rintro rfl
        rw [gray] at isBlack
        cases isBlack
      rw [others self] at isBlack
      rw [holds] at after
      obtain before | isPending := marking.black isBlack after
      · exact .inl (kept before)
      · exact absurd (only isPending) self
    · intro p isBlack
      have self : p ≠ .table t := by
        rintro rfl
        rw [gray] at isBlack
        cases isBlack
      rw [others self] at isBlack
      exact marking.notBlack isBlack
    · intro p isGray
      by_cases self : p = .table t
      · subst self
        exact .inr (.inl List.mem_cons_self)
      · rw [others self] at isGray
        obtain inGray | inAgain | waits := marking.gray isGray
        · exact .inl inGray
        · exact .inr (.inl (List.mem_cons_of_mem _ inAgain))
        · exact .inr (.inr waits)
    · intro p listed
      obtain inGray | inAgain | inWeak := listed
      · exact (marking.listed (.inl inGray)).imp id kept
      · cases List.mem_cons.1 inAgain with
        | inl head =>
          subst head
          exact ⟨trivial, .inl gray⟩
        | inr tail => exact (marking.listed (.inr (.inl tail))).imp id kept
      · exact (marking.listed (.inr (.inr inWeak))).imp id kept

/-- After `gafqC_objbarriert` the reference needs no more attention. -/
theorem Consistent.objbarriert {t : Nat} (consistent : Consistent pending s) (live : s.Live o)
    (only : ∀ {p r}, pending p r → p = .table t) :
    Consistent (fun p r => pending p r ∧ r ≠ o) (s.objbarriert t o) := by
  unfold State.objbarriert
  split
  · next crossing =>
    simp only [Bool.and_eq_true] at crossing
    exact consistent.barrierback (isblack_iff.1 crossing.2) only
  · next clear =>
    refine consistent.discharge fun {p r} black isPending => ?_
    by_cases self : r = o
    · subst self
      obtain rfl := only isPending
      refine .inl (nonWhite_of_not_white live.allocated ?_)
      simp only [Bool.and_eq_true, not_and] at clear
      exact Bool.eq_false_iff.2 fun white => clear white (isblack_iff.2 black)
    · exact .inr ⟨isPending, self⟩

theorem Consistent.barriert {t : Nat} {v : TValue N} (consistent : Consistent pending s)
    (live : ∀ {r}, gcvalue v = some r → s.Live r) (only : ∀ {p r}, pending p r → p = .table t) :
    Consistent (fun p r => pending p r ∧ gcvalue v ≠ some r) (s.barriert t v) := by
  unfold State.barriert
  cases isRef : gcvalue v with
  | none => exact consistent.discharge fun _ isPending => .inr ⟨isPending, nofun⟩
  | some o =>
    refine (consistent.objbarriert (live isRef) only).discharge fun _ isPending => .inr ⟨isPending.1, fun same => ?_⟩
    exact isPending.2 (Option.some.inj same).symm

/-! ## Stacks -/

theorem stores_setThread {a : Nat} {x : ThreadObject N} (openupval : x.openupval = (s.thread a).openupval) :
    Stores s (s.setThread a x) := by
  refine ⟨rfl, fun b => ?_, fun _ _ _ => Iff.rfl⟩
  simp only [setThread]
  by_cases same : b = a
  · subst same
    rw [Function.update_self, openupval]
  · rw [Function.update_of_ne same]

/-- Live values are stored in a stack. -/
theorem Consistent.setThread {a : Nat} {x : ThreadObject N} (consistent : Consistent nothing s)
    (openupval : x.openupval = (s.thread a).openupval)
    (refers : ∀ {r}, x.Refers r → (s.thread a).Refers r ∨ s.Live r)
    (slots : ∀ {level r}, gcvalue (x.stack level) = some r → gcvalue ((s.thread a).stack level) = some r ∨ s.Live r) :
    Consistent nothing (s.setThread a x) := by
  refine consistent.storesStack (stores_setThread openupval) (fun {p r} after => ?_) rfl fun root =>
    .inl (root.congr rfl rfl rfl rfl)
  obtain before | ⟨rfl, own⟩ | ⟨u, level, rfl, kind, isRef⟩ := refers_setThread after
  · exact .inl before
  · exact (refers own).imp id fun live => ⟨.inl ⟨a, rfl⟩, live⟩
  · refine (slots isRef).imp (fun before => ?_) fun live => ⟨.inr ⟨u, a, level, rfl, kind⟩, live⟩
    simpa only [Refers, upvalValue, kind] using before

theorem slots_update {stack : Nat → TValue N} {i level : Nat} {v : TValue N}
    (live : ∀ {r}, gcvalue v = some r → s.Live r) (isRef : gcvalue (Function.update stack i v level) = some r) :
    gcvalue (stack level) = some r ∨ s.Live r := by
  by_cases same : level = i
  · subst same
    rw [Function.update_self] at isRef
    exact .inr (live isRef)
  · rw [Function.update_of_ne same] at isRef
    exact .inl isRef

theorem push_consistent {a : Nat} {v : TValue N} (consistent : Consistent nothing s)
    (live : ∀ {r}, gcvalue v = some r → s.Live r) : Consistent nothing (s.push a v) := by
  refine consistent.setThread rfl (fun {r} refers => ?_) fun isRef => slots_update live isRef
  obtain global | ⟨i, inUse, isRef⟩ := refers
  · exact .inl (.inl global)
  · by_cases same : i = (s.thread a).top
    · simp only [same, Function.update_self] at isRef
      exact .inr (live isRef)
    · simp only [Function.update_of_ne same] at isRef
      refine .inl (.inr ⟨i, lt_exposed.2 ((lt_exposed.1 inUse).imp (fun below => ?_) id), isRef⟩)
      have below : i < (s.thread a).top + 1 := below
      omega

end Gafq.GC.State
