import Gafq.Verified.GC.Propagation

/-! # The mark phase

No black object refers to a white one, and every gray object is on a list or will be looked at
again before the mark phase ends.  The invariant has a parameter for the gray objects that are not
on the gray list: while the program runs these may have changed since they were traversed, in the
atomic step they are done.
-/

namespace Gafq.GC.State

variable {N : Type} {s s' : State N} {o p r : GCRef}

/-! ## Where the objects are -/

/-- Every object is in one of the lists that the sweep goes through. -/
structure Owned (s : State N) : Prop where
  string : ∀ {a}, s.colour (.string a) ≠ none → a ∈ s.strt.flatten
  udata : ∀ {a}, s.colour (.udata a) ≠ none → .udata a ∈ s.rootgc ∨ a ∈ s.tmudata
  traversable : ∀ {o}, o.Traversable → s.colour o ≠ none → o ∈ s.rootgc
  closedUpval : ∀ {u v}, s.colour (.upval u) ≠ none → s.upval u = .closed v → .upval u ∈ s.rootgc
  openUpval : ∀ {u th level}, s.colour (.upval u) ≠ none → s.upval u = .inStack th level →
    u ∈ s.uvhead ∧ u ∈ (s.thread th).openupval ∧ s.colour (.thread th) ≠ none
  openNodup : ∀ {th}, s.colour (.thread th) ≠ none → (s.thread th).openupval.Nodup
  openList : ∀ {th u}, s.colour (.thread th) ≠ none → u ∈ (s.thread th).openupval →
    s.colour (.upval u) ≠ none ∧ ∃ level, s.upval u = .inStack th level
  buckets : 0 < s.strt.length

theorem Owned.mem_objects (owned : s.Owned) (present : s.colour r ≠ none) : r ∈ s.objects := by
  simp only [objects, List.mem_append, List.mem_map]
  cases r with
  | string a => exact .inr (.inl ⟨a, owned.string present, rfl⟩)
  | udata a =>
    obtain inRoot | pending := owned.udata present
    · exact .inl inRoot
    · exact .inr (.inr (.inl ⟨a, pending, rfl⟩))
  | upval u =>
    cases kind : s.upval u with
    | closed v => exact .inl (owned.closedUpval present kind)
    | inStack th level => exact .inr (.inr (.inr ⟨u, (owned.openUpval present kind).1, rfl⟩))
  | proto | closure | table | thread => exact .inl (owned.traversable trivial present)

theorem Owned.congr (owned : s.Owned) (background : s'.toBackground = s.toBackground)
    (openupval : ∀ a, (s'.thread a).openupval = (s.thread a).openupval)
    (allocated : ∀ r, s'.colour r ≠ none ↔ s.colour r ≠ none) : s'.Owned := by
  have rootgc : s'.rootgc = s.rootgc := by simp only [rootgc, background]
  constructor
  · intro a present
    rw [background]
    exact owned.string ((allocated _).1 present)
  · intro a present
    rw [rootgc, background]
    exact owned.udata ((allocated _).1 present)
  · intro o traversable present
    rw [rootgc]
    exact owned.traversable traversable ((allocated _).1 present)
  · intro u v present kind
    rw [rootgc]
    rw [background] at kind
    exact owned.closedUpval ((allocated _).1 present) kind
  · intro u th level present kind
    rw [background] at kind ⊢
    rw [openupval, allocated]
    exact owned.openUpval ((allocated _).1 present) kind
  · intro th present
    rw [openupval]
    exact owned.openNodup ((allocated _).1 present)
  · intro th u present member
    rw [openupval] at member
    rw [background, allocated]
    exact owned.openList ((allocated _).1 present) member
  · rw [background]
    exact owned.buckets

/-- The lists hold every object once, and no object that has been freed. -/
structure Linked (s : State N) : Prop where
  nodup : (s.rootgc ++ s.tmudata.map GCRef.udata).Nodup
  allocated : ∀ {o}, o ∈ s.rootgc → s.colour o ≠ none ∧ ¬ s.IsOpen o
  notString : ∀ {a}, .string a ∉ s.rootgc
  strings : s.strt.flatten.Nodup
  interned : ∀ {a}, a ∈ s.strt.flatten → s.colour (.string a) ≠ none

theorem Linked.congr (linked : s.Linked) (background : s'.toBackground = s.toBackground)
    (allocated : ∀ r, s'.colour r ≠ none ↔ s.colour r ≠ none) : s'.Linked := by
  constructor
  · simp only [rootgc, background]
    exact linked.nodup
  · intro o member
    simp only [rootgc, background] at member
    simp only [IsOpen, background]
    exact (linked.allocated member).imp (allocated o).2 id
  · simp only [rootgc, background]
    exact linked.notString
  · rw [background]
    exact linked.strings
  · intro a member
    rw [background] at member
    exact (allocated _).2 (linked.interned member)

/-! ## The tri-colour invariant -/

/-- The gray objects that are not on the gray list satisfy `waits`; the references in `pending` are
those that a barrier still has to look at. -/
structure Marking (waits : State N → GCRef → Prop) (pending : GCRef → GCRef → Prop) (s : State N) : Prop where
  noDead : ∀ {r}, s.colour r ≠ some (.white !s.currentwhite)
  black : ∀ {o r}, s.colour o = some .black → s.Holds o r → s.NonWhite r ∨ pending o r
  notBlack : ∀ {o}, s.colour o = some .black → (∀ a, o ≠ .thread a) ∧ ¬ s.IsOpen o
  gray : ∀ {o}, s.colour o = some .gray → o ∈ s.gray ∨ waits s o
  listed : ∀ {o}, o ∈ s.gray ∨ o ∈ s.grayagain ∨ o ∈ s.weak → o.Traversable ∧ s.NonWhite o

/-- Gray objects while the program runs. -/
def Postponed (s : State N) (o : GCRef) : Prop :=
  o ∈ s.grayagain ∨ o ∈ s.weak ∨ o.IsString ∨ s.IsOpen o

/-- Userdata are black as soon as they are marked. -/
def NoGrayUdata (s : State N) : Prop := ∀ u, s.colour (.udata u) ≠ some .gray

theorem Marking.noGrayUdata {pending : GCRef → GCRef → Prop} (marking : Marking Postponed pending s) :
    s.NoGrayUdata := by
  intro u isGray
  obtain inGray | inAgain | inWeak | isString | ⟨v, th, level, same, -⟩ := marking.gray isGray
  · exact (marking.listed (.inl inGray)).1
  · exact (marking.listed (.inr (.inl inAgain))).1
  · exact (marking.listed (.inr (.inr inWeak))).1
  · exact isString
  · cases same

/-- Gray objects that the atomic step has traversed. -/
def Finished (s : State N) (o : GCRef) : Prop :=
  (∃ a, o = .table a ∧ s.WeakDone a) ∨ (∃ a, o = .thread a ∧ ∀ r, s.Refers o r → s.NonWhite r) ∨
  o.IsString ∨ s.IsOpen o ∧ ∀ r, s.Refers o r → s.NonWhite r

/-- What a condition on gray objects must satisfy for marking to keep the invariant. -/
structure Stable (waits : State N → GCRef → Prop) : Prop where
  string : ∀ {s : State N} {o}, o.IsString → waits s o
  upval : ∀ {s : State N} {o}, s.IsOpen o → (∀ r, s.Refers o r → s.NonWhite r) → waits s o
  traversed : ∀ {s : State N} {o}, s.Traversed o → s.colour o = some .gray → waits s o
  mono : ∀ {s s' : State N} {o p}, Traverses o s s' → p ≠ o → waits s p → waits s' p
  unlisted : ∀ {s : State N} {rest : List GCRef} {p}, waits s p → waits { s with gray := rest } p

theorem WeakDone.mono {a : Nat} (traverses : Traverses o s s') (other : .table a ≠ o) (done : s.WeakDone a) :
    s'.WeakDone a where
  listed := traverses.weak_mono done.listed
  metatable m isMetatable := by
    rw [traverses.table other] at isMetatable
    exact traverses.nonWhite (done.metatable m isMetatable)
  array strong i inside r isRef := by
    rw [traverses.table other] at strong inside isRef
    exact traverses.nonWhite (done.array strong i inside r isRef)
  node i inside used r which := by
    rw [traverses.table other] at inside used which
    exact traverses.nonWhite (done.node i inside used r which)
  mode := by
    rw [traverses.table other]
    exact ⟨fun strong => done.mode.1 ((traverses.fades.mode a).1 strong),
      fun strong => done.mode.2 ((traverses.fades.mode a).2 strong)⟩

theorem postponed_stable : Stable (Postponed : State N → GCRef → Prop) where
  string isString := .inr (.inr (.inl isString))
  upval isOpen _ := .inr (.inr (.inr isOpen))
  traversed traversed isGray := by
    cases traversed with
    | black black =>
      rw [black] at isGray
      cases isGray
    | weak _ done => exact .inr (.inl done.listed)
    | thread _ listed => exact .inl listed
  mono traverses _ waits := by
    obtain listed | listed | isString | isOpen := waits
    · exact .inl (traverses.grayagain_mono listed)
    · exact .inr (.inl (traverses.weak_mono listed))
    · exact .inr (.inr (.inl isString))
    · exact .inr (.inr (.inr (traverses.isOpen ▸ isOpen)))
  unlisted waits := waits

/-- In the atomic step some objects are left for later. -/
def FinishedOr (left : List GCRef) (s : State N) (o : GCRef) : Prop := o ∈ left ∨ s.Finished o

theorem finished_stable (left : List GCRef) : Stable (FinishedOr left : State N → GCRef → Prop) where
  string isString := .inr (.inr (.inr (.inl isString)))
  upval isOpen clean := .inr (.inr (.inr (.inr ⟨isOpen, clean⟩)))
  traversed traversed isGray := by
    cases traversed with
    | black black =>
      rw [black] at isGray
      cases isGray
    | weak _ done => exact .inr (.inl ⟨_, rfl, done⟩)
    | thread _ _ clean => exact .inr (.inr (.inl ⟨_, rfl, clean⟩))
  mono traverses other waits := by
    obtain isLeft | ⟨a, rfl, done⟩ | ⟨a, rfl, clean⟩ | isString | ⟨isOpen, clean⟩ := waits
    · exact .inl isLeft
    · exact .inr (.inl ⟨a, rfl, done.mono traverses other⟩)
    · exact .inr (.inr (.inl ⟨a, rfl, fun r refers => traverses.nonWhite (clean r (traverses.refers refers))⟩))
    · exact .inr (.inr (.inr (.inl isString)))
    · refine .inr (.inr (.inr (.inr ⟨traverses.isOpen ▸ isOpen, fun r refers => ?_⟩)))
      exact traverses.nonWhite (clean r (traverses.refers refers))
  unlisted {s rest p} waits := by
    have refers : ({ s with gray := rest } : State N).Refers = s.Refers := refers_congr rfl rfl rfl
    obtain isLeft | ⟨a, rfl, done⟩ | ⟨a, rfl, clean⟩ | isString | ⟨isOpen, clean⟩ := waits
    · exact .inl isLeft
    · exact .inr (.inl ⟨a, rfl, done.listed, done.metatable, done.array, done.node, done.mode⟩)
    · exact .inr (.inr (.inl ⟨a, rfl, fun r after => clean r (refers ▸ after)⟩))
    · exact .inr (.inr (.inr (.inl isString)))
    · exact .inr (.inr (.inr (.inr ⟨isOpen, fun r after => clean r (refers ▸ after)⟩)))

section Steps

variable {waits : State N → GCRef → Prop} {pending pending' : GCRef → GCRef → Prop}

theorem exists_other (p : GCRef) : ∃ o : GCRef, p ≠ o := by
  by_cases same : p = .string 0
  · exact ⟨.string 1, by simp [same]⟩
  · exact ⟨.string 0, same⟩

/-- A traversal keeps the invariant for all objects but the one that is traversed. -/
structure MarkingBut (waits : State N → GCRef → Prop) (pending : GCRef → GCRef → Prop) (o : GCRef) (s : State N) :
    Prop where
  noDead : ∀ {r}, r ≠ o → s.colour r ≠ some (.white !s.currentwhite)
  black : ∀ {p r}, p ≠ o → s.colour p = some .black → s.Holds p r → s.NonWhite r ∨ pending p r
  notBlack : ∀ {p}, p ≠ o → s.colour p = some .black → (∀ a, p ≠ .thread a) ∧ ¬ s.IsOpen p
  gray : ∀ {p}, p ≠ o → s.colour p = some .gray → p ∈ s.gray ∨ waits s p

theorem MarkingBut.traverses (stable : Stable waits) (marking : MarkingBut waits pending o s)
    (traverses : Traverses o s s') : MarkingBut waits pending o s' := by
  have currentwhite : s'.currentwhite = s.currentwhite := by rw [traverses.background]
  constructor
  · intro r other
    rw [currentwhite]
    by_cases white : s.iswhite r = true
    · obtain same | settled := traverses.turned other white
      · rw [same]
        exact marking.noDead other
      · exact settled.nonWhite.ne_white _
    · rw [traverses.kept other (by simpa using white)]
      exact marking.noDead other
  · intro p r other isBlack holds
    by_cases white : s.iswhite p = true
    · obtain same | ⟨-, -, clean⟩ | ⟨isGray, -⟩ := traverses.turned other white
      · rw [isBlack] at same
        obtain ⟨bit, isWhite⟩ := iswhite_iff.1 white
        rw [isWhite] at same
        cases same
      · exact .inl (clean r holds)
      · rw [isBlack] at isGray
        cases isGray
    · rw [traverses.kept other (by simpa using white)] at isBlack
      exact (marking.black other isBlack (traverses.holds holds)).imp traverses.nonWhite id
  · intro p other isBlack
    rw [traverses.isOpen]
    by_cases white : s.iswhite p = true
    · obtain same | ⟨-, ⟨notTraversable, -, notOpen⟩, -⟩ | ⟨isGray, -⟩ := traverses.turned other white
      · rw [isBlack] at same
        obtain ⟨bit, isWhite⟩ := iswhite_iff.1 white
        rw [isWhite] at same
        cases same
      · refine ⟨fun a isThread => ?_, traverses.isOpen ▸ notOpen⟩
        subst isThread
        exact notTraversable trivial
      · rw [isBlack] at isGray
        cases isGray
    · rw [traverses.kept other (by simpa using white)] at isBlack
      exact marking.notBlack other isBlack
  · intro p other isGray
    by_cases white : s.iswhite p = true
    · obtain same | ⟨isBlack, -⟩ | ⟨-, ⟨-, listed⟩ | isString | ⟨isOpen, clean⟩⟩ := traverses.turned other white
      · rw [isGray] at same
        obtain ⟨bit, isWhite⟩ := iswhite_iff.1 white
        rw [isWhite] at same
        cases same
      · rw [isGray] at isBlack
        cases isBlack
      · exact .inl listed
      · exact .inr (stable.string isString)
      · exact .inr (stable.upval isOpen clean)
    · rw [traverses.kept other (by simpa using white)] at isGray
      exact (marking.gray other isGray).imp traverses.mem_gray (stable.mono traverses other)

theorem Marking.but (marking : Marking waits pending s) (o : GCRef) : MarkingBut waits pending o s :=
  ⟨fun _ => marking.noDead, fun _ => marking.black, fun _ => marking.notBlack, fun _ => marking.gray⟩

/-- Marking keeps the invariant, and it may mark what a barrier was to look at. -/
theorem Marking.marks (stable : Stable waits) (marking : Marking waits pending s) (marks : Marks s s')
    (discharged : ∀ {o r}, pending o r → s'.NonWhite r ∨ pending' o r) : Marking waits pending' s' := by
  have each : ∀ p, ∃ o, p ≠ o ∧ MarkingBut waits pending o s' := fun p => by
    obtain ⟨o, other⟩ := exists_other p
    exact ⟨o, other, (marking.but o).traverses stable (marks.traverses o)⟩
  constructor
  · intro r
    obtain ⟨o, other, but⟩ := each r
    exact but.noDead other
  · intro p r isBlack holds
    obtain ⟨o, other, but⟩ := each p
    exact (but.black other isBlack holds).elim .inl discharged
  · intro p isBlack
    obtain ⟨o, other, but⟩ := each p
    exact but.notBlack other isBlack
  · intro p isGray
    obtain ⟨o, other, but⟩ := each p
    exact but.gray other isGray
  · intro o listed
    rw [marks.grayagain, marks.weak] at listed
    obtain ⟨new, gray, -, fresh⟩ := marks.gray
    obtain inGray | inAgain | inWeak := listed
    · rw [gray] at inGray
      cases List.mem_append.1 inGray with
      | inl isNew => exact ⟨(fresh o isNew).1, (fresh o isNew).2.2⟩
      | inr before => exact (marking.listed (.inl before)).imp id marks.nonWhite
    · exact (marking.listed (.inr (.inl inAgain))).imp id marks.nonWhite
    · exact (marking.listed (.inr (.inr inWeak))).imp id marks.nonWhite

/-- No reference is pending. -/
def nothing : GCRef → GCRef → Prop := fun _ _ => False

theorem Marking.propagatemark (stable : Stable waits) (marking : Marking waits pending s) (grounded : s.Grounded)
    {rest : List GCRef} (isGray : s.gray = o :: rest) : Marking waits pending s.propagatemark := by
  obtain ⟨traversable, nonWhite⟩ := @Marking.listed _ _ _ _ marking o (.inl (isGray ▸ List.mem_cons_self))
  obtain ⟨traverses, traversed⟩ := propagatemark_spec grounded isGray traversable nonWhite
  have popped : MarkingBut waits pending o { s with gray := rest } := by
    constructor
    · exact fun _ => marking.noDead
    · intro p r _ isBlack holds
      have same : ({ s with gray := rest } : State N).Holds = s.Holds := holds_congr rfl rfl rfl
      rw [same] at holds
      exact marking.black isBlack holds
    · exact fun _ => marking.notBlack
    · intro p other isGray'
      obtain listed | waiting := marking.gray isGray'
      · rw [isGray] at listed
        exact .inl ((List.mem_cons.1 listed).resolve_left other)
      · exact .inr (stable.unlisted waiting)
  have others := popped.traverses stable traverses
  have clean : ∀ r, s.propagatemark.colour o = some .black → s.propagatemark.Holds o r → s.propagatemark.NonWhite r := by
    intro r isBlack holds
    cases traversed with
    | black _ clean => exact clean r holds
    | weak isGray' | thread isGray' =>
      rw [isBlack] at isGray'
      cases isGray'
  constructor
  · intro r
    by_cases self : r = o
    · subst self
      exact (traverses.self nonWhite).ne_white _
    · exact others.noDead self
  · intro p r isBlack holds
    by_cases self : p = o
    · subst self
      exact .inl (clean r isBlack holds)
    · exact others.black self isBlack holds
  · intro p isBlack
    by_cases self : p = o
    · subst self
      cases traversed with
      | black _ _ notThread =>
        refine ⟨notThread, ?_⟩
        rintro ⟨u, th, level, rfl, -⟩
        exact traversable
      | weak isGray' | thread isGray' =>
        rw [isBlack] at isGray'
        cases isGray'
    · exact others.notBlack self isBlack
  · intro p isGray'
    by_cases self : p = o
    · subst self
      exact .inr (stable.traversed traversed isGray')
    · exact others.gray self isGray'
  · intro p listed
    have before : ∀ {p}, p ∈ s.gray ∨ p ∈ s.grayagain ∨ p ∈ s.weak → p.Traversable ∧ s.propagatemark.NonWhite p :=
      fun listed => (marking.listed listed).imp id traverses.nonWhite
    obtain inGray | inAgain | inWeak := listed
    · obtain ⟨new, gray, -, fresh⟩ := traverses.gray
      rw [gray] at inGray
      cases List.mem_append.1 inGray with
      | inl isNew => exact ⟨(fresh p isNew).1, (fresh p isNew).2.2⟩
      | inr inRest => exact before (.inl (isGray ▸ List.mem_cons_of_mem _ inRest))
    · obtain inAgain | rfl := traverses.grayagain inAgain
      · exact before (.inr (.inl inAgain))
      · exact ⟨traversable, traverses.self nonWhite⟩
    · obtain inWeak | rfl := traverses.weak inWeak
      · exact before (.inr (.inr inWeak))
      · exact ⟨traversable, traverses.self nonWhite⟩

/-! ## `propagateall` -/

/-- What the whole mark phase keeps, beside the colours. -/
structure Sound (s : State N) : Prop where
  owned : s.Owned
  grounded : s.Grounded
  linked : s.Linked

theorem Traverses.sound (traverses : Traverses o s s') (before : s.colour o ≠ none) (after : s'.colour o ≠ none)
    (sound : s.Sound) : s'.Sound :=
  ⟨sound.owned.congr traverses.background traverses.openupval (traverses.allocated before after),
    sound.grounded.congr traverses.refers (traverses.allocated before after),
    sound.linked.congr traverses.background (traverses.allocated before after)⟩

theorem Marks.sound (marks : Marks s s') (sound : s.Sound) : s'.Sound :=
  ⟨sound.owned.congr marks.background (fun _ => by rw [marks.thread]) fun _ => marks.allocated,
    marks.grounded sound.grounded, sound.linked.congr marks.background fun _ => marks.allocated⟩

/-- Marking goes forward. -/
structure Advances (s s' : State N) : Prop where
  background : s'.toBackground = s.toBackground
  fades : Fades s s'
  allocated : ∀ r, s'.colour r ≠ none ↔ s.colour r ≠ none
  nonWhite : ∀ {r}, s.NonWhite r → s'.NonWhite r
  weak : ∀ {p}, p ∈ s.weak → p ∈ s'.weak
  grayagain : ∀ {p}, p ∈ s.grayagain → p ∈ s'.grayagain

theorem Advances.trans {s₁ s₂ : State N} (first : Advances s s₁) (second : Advances s₁ s₂) : Advances s s₂ :=
  ⟨second.background.trans first.background, first.fades.trans second.fades,
    fun r => (second.allocated r).trans (first.allocated r), fun before => second.nonWhite (first.nonWhite before),
    fun member => second.weak (first.weak member), fun member => second.grayagain (first.grayagain member)⟩

theorem Advances.refl (s : State N) : Advances s s := ⟨rfl, .refl s, fun _ => Iff.rfl, id, id, id⟩

theorem Marks.advances (marks : Marks s s') : Advances s s' :=
  ⟨marks.background, marks.fades, fun _ => marks.allocated, marks.nonWhite,
    fun member => marks.weak ▸ member, fun member => marks.grayagain ▸ member⟩

theorem Traverses.advances (traverses : Traverses o s s') (before : s.colour o ≠ none) (after : s'.colour o ≠ none) :
    Advances s s' :=
  ⟨traverses.background, traverses.fades, traverses.allocated before after, traverses.nonWhite, traverses.weak_mono,
    traverses.grayagain_mono⟩

def whites (s : State N) : Finset GCRef := s.objects.toFinset.filter fun r => s.iswhite r = true

/-- The number of objects that `propagateall` has still to traverse is at most this. -/
def work (s : State N) : Nat := s.gray.length + s.whites.card

theorem Traverses.work (traverses : Traverses o s s') (nonWhite : s.NonWhite o) (owned : s.Owned) :
    s'.work ≤ s.work := by
  obtain ⟨new, gray, nodup, fresh⟩ := traverses.gray
  have objects : s'.objects = s.objects := by simp only [objects, rootgc, traverses.background]
  have apart : Disjoint s'.whites new.toFinset := by
    rw [Finset.disjoint_left]
    intro r isWhite isNew
    have white := (Finset.mem_filter.1 isWhite).2
    rw [(fresh r (List.mem_toFinset.1 isNew)).2.2.not_white] at white
    cases white
  have subset : s'.whites ∪ new.toFinset ⊆ s.whites := by
    intro r member
    cases Finset.mem_union.1 member with
    | inl isWhite =>
      obtain ⟨here, white⟩ := Finset.mem_filter.1 isWhite
      rw [objects] at here
      exact Finset.mem_filter.2 ⟨here, traverses.white_of_white nonWhite white⟩
    | inr isNew =>
      have white := (fresh r (List.mem_toFinset.1 isNew)).2.1
      refine Finset.mem_filter.2 ⟨List.mem_toFinset.2 (owned.mem_objects ?_), white⟩
      obtain ⟨bit, colour⟩ := iswhite_iff.1 white
      simp [colour]
  have count := Finset.card_le_card subset
  rw [Finset.card_union_of_disjoint apart, List.toFinset_card_of_nodup nodup] at count
  simp only [State.work, gray, List.length_append]
  omega

theorem Sound.setGray (sound : s.Sound) (rest : List GCRef) : ({ s with gray := rest } : State N).Sound := by
  refine ⟨sound.owned.congr rfl (fun _ => rfl) fun _ => Iff.rfl,
    sound.grounded.congr (fun {p r} refers => ?_) fun _ => Iff.rfl, sound.linked.congr rfl fun _ => Iff.rfl⟩
  cases p <;> exact refers

theorem advances_setGray (s : State N) (rest : List GCRef) : Advances s { s with gray := rest } :=
  ⟨rfl, .of_eq (refers_congr rfl rfl rfl) rfl rfl rfl rfl, fun _ => Iff.rfl, id, id, id⟩

/-- The result of a loop that ends with an empty gray list. -/
structure Propagated (waits : State N → GCRef → Prop) (pending : GCRef → GCRef → Prop) (s s' : State N) : Prop where
  sound : s'.Sound
  marking : Marking waits pending s'
  advances : Advances s s'
  gray : s'.gray = []

theorem propagateall_spec (sound : s.Sound) (marking : Marking waits pending s) (stable : Stable waits) :
    Propagated waits pending s s.propagateall := by
  have loop : ∀ (fuel : Nat) {s : State N}, s.Sound → Marking waits pending s → s.work ≤ fuel →
      Propagated waits pending s (s.propagateLoop fuel) := by
    intro fuel
    induction fuel with
    | zero =>
      intro s sound marking enough
      refine ⟨sound, marking, Advances.refl s, List.length_eq_zero_iff.1 ?_⟩
      have : s.gray.length ≤ s.work := Nat.le_add_right ..
      exact Nat.le_zero.1 (this.trans enough)
    | succ fuel inductionHypothesis =>
      intro s sound marking enough
      unfold propagateLoop
      cases isGray : s.gray with
      | nil => exact ⟨sound, marking, Advances.refl s, isGray⟩
      | cons o rest =>
        simp only [List.isEmpty_cons, Bool.false_eq_true, if_false]
        obtain ⟨traversable, nonWhite⟩ := @Marking.listed _ _ _ _ marking o (.inl (isGray ▸ List.mem_cons_self))
        obtain ⟨traverses, -⟩ := propagatemark_spec sound.grounded isGray traversable nonWhite
        have nonWhite₀ : ({ s with gray := rest } : State N).NonWhite o := nonWhite
        have sound₀ := sound.setGray rest
        have less := traverses.work nonWhite₀ sound₀.owned
        have popped : s.work = ({ s with gray := rest } : State N).work + 1 := by
          have same : ({ s with gray := rest } : State N).whites = s.whites := rfl
          simp only [State.work, isGray, List.length_cons, same]
          omega
        have after := (traverses.self nonWhite₀).allocated
        have rest := inductionHypothesis (traverses.sound nonWhite₀.allocated after sound₀)
          (marking.propagatemark stable sound.grounded isGray) (by omega)
        exact ⟨rest.sound, rest.marking,
          (advances_setGray s _).trans ((traverses.advances nonWhite₀.allocated after).trans rest.advances), rest.gray⟩
  refine loop _ sound marking ?_
  have bound : s.whites.card ≤ s.objects.length :=
    (Finset.card_filter_le _ _).trans (List.toFinset_card_le _)
  simp only [State.work]
  omega

end Steps

end Gafq.GC.State
