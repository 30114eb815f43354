import Gafq.Verified.GC.MarkPhase

/-! # The atomic step

At the end of `atomic` the objects that are not white are closed under all references, weak ones
included: what was still white has been cleared from the weak tables.
-/

namespace Gafq.GC.State

variable {N : Type} {s s' : State N} {o p r : GCRef} {pending pending' : GCRef → GCRef → Prop}

section Lists

variable {waits waits' : State N → GCRef → Prop}

/-- The lists of the collector may be rearranged as long as every gray object stays on one of them. -/
theorem Marking.rearrange (marking : Marking waits pending s) {gray grayagain weak : List GCRef}
    (covered : ∀ {o}, s.colour o = some .gray → o ∈ s.gray ∨ waits s o →
      o ∈ gray ∨ waits' { s with gray, grayagain, weak } o)
    (listed : ∀ {o}, o ∈ gray ∨ o ∈ grayagain ∨ o ∈ weak → o ∈ s.gray ∨ o ∈ s.grayagain ∨ o ∈ s.weak) :
    Marking waits' pending { s with gray, grayagain, weak } := by
  have same : ({ s with gray, grayagain, weak } : State N).Holds = s.Holds := holds_congr rfl rfl rfl
  constructor
  · exact marking.noDead
  · intro o r isBlack holds
    rw [same] at holds
    exact marking.black isBlack holds
  · exact marking.notBlack
  · exact fun isGray => covered isGray (marking.gray isGray)
  · exact fun member => marking.listed (listed member)

theorem Sound.setLists (sound : s.Sound) (gray grayagain weak : List GCRef) :
    ({ s with gray, grayagain, weak } : State N).Sound := by
  refine ⟨sound.owned.congr rfl (fun _ => rfl) fun _ => Iff.rfl,
    sound.grounded.congr (fun {p r} refers => ?_) fun _ => Iff.rfl, sound.linked.congr rfl fun _ => Iff.rfl⟩
  cases p <;> exact refers

end Lists

/-! ## Open upvalues -/

theorem remarkupval_marks (grounded : s.Grounded) (u : Nat) :
    Marks s (s.remarkupval u) ∧ (s.colour (.upval u) = some .gray → ∀ r, s.Refers (.upval u) r → (s.remarkupval u).NonWhite r) := by
  unfold remarkupval
  split
  · next isGray =>
    have marks := markvalue_marks grounded (s.upvalValue u)
    refine ⟨marks.toMarks, fun isGray r refers => marks.marked _ List.mem_cons_self r refers ?_⟩
    exact grounded.allocated (by simp [isGray]) refers
  · next notGray => exact ⟨Marks.refl s, fun isGray => absurd (isgray_iff.2 isGray) notGray⟩

theorem remarkupvals_marks (us : List Nat) : ∀ {s : State N}, s.Grounded →
    Marks s (us.foldl remarkupval s) ∧ ∀ u ∈ us, s.colour (.upval u) = some .gray →
      ∀ r, s.Refers (.upval u) r → (us.foldl remarkupval s).NonWhite r := by
  induction us with
  | nil => exact fun _ => ⟨Marks.refl _, by simp⟩
  | cons u us inductionHypothesis =>
    intro s grounded
    obtain ⟨first, clean⟩ := remarkupval_marks grounded u
    obtain ⟨rest, cleanRest⟩ := inductionHypothesis (first.grounded grounded)
    refine ⟨first.trans rest, fun v member isGray r refers => ?_⟩
    cases List.mem_cons.1 member with
    | inl head =>
      subst head
      exact rest.nonWhite (clean isGray r refers)
    | inr tail =>
      refine cleanRest v tail ?_ r (first.refers ▸ refers)
      rw [first.kept (NonWhite.not_white (.inl isGray)), isGray]

/-- The values of open upvalues may have changed without a barrier; after this they are marked. -/
theorem remarkupvals_marking (sound : s.Sound) (marking : Marking Postponed pending s) :
    Marking (FinishedOr (s.grayagain ++ s.weak)) pending s.remarkupvals := by
  unfold remarkupvals
  obtain ⟨marks, clean⟩ := remarkupvals_marks s.uvhead sound.grounded
  have again : Marking Postponed pending (s.uvhead.foldl remarkupval s) :=
    marking.marks postponed_stable marks fun isPending => .inr isPending
  refine ⟨again.noDead, again.black, again.notBlack, fun {o} isGray => ?_, again.listed⟩
  by_cases white : s.iswhite o = true
  · obtain same | ⟨isBlack, -⟩ | ⟨-, ⟨-, listed⟩ | isString | ⟨isOpen, done⟩⟩ := marks.turned white
    · rw [same] at isGray
      obtain ⟨bit, isWhite⟩ := iswhite_iff.1 white
      rw [isWhite] at isGray
      cases isGray
    · rw [isBlack] at isGray
      cases isGray
    · exact .inl listed
    · exact .inr (.inr (.inr (.inr (.inl isString))))
    · exact .inr (.inr (.inr (.inr (.inr ⟨isOpen, done⟩))))
  · have isGray' : s.colour o = some .gray := by
      rw [← marks.kept (by simpa using white)]
      exact isGray
    obtain listed | inAgain | inWeak | isString | isOpen := marking.gray isGray'
    · exact .inl (marks.mem_gray listed)
    · exact .inr (.inl (List.mem_append_left _ inAgain))
    · exact .inr (.inl (List.mem_append_right _ inWeak))
    · exact .inr (.inr (.inr (.inr (.inl isString))))
    · refine .inr (.inr (.inr (.inr (.inr ⟨marks.isOpen ▸ isOpen, fun r refers => ?_⟩))))
      obtain ⟨u, th, level, rfl, kind⟩ := isOpen
      have member := (sound.owned.openUpval (by simp [isGray']) kind).1
      exact clean u member isGray' r (marks.refers ▸ refers)

/-! ## Userdata -/

/-- `gafqC_separateudata` sorts the list; it changes nothing that marking looks at. -/
structure Separates (all : Bool) (list kept : List GCRef) (s s' : State N) : Prop where
  frame : s' = { s with udata := s'.udata, tmudata := s'.tmudata }
  refs : ∀ a, (s'.udata a).refs = (s.udata a).refs
  perm : (kept ++ s'.tmudata.map GCRef.udata).Perm (list ++ s.tmudata.map GCRef.udata)
  tmudata : ∀ {u}, u ∈ s.tmudata → u ∈ s'.tmudata
  white : ∀ {u}, u ∈ s'.tmudata → u ∈ s.tmudata ∨ (all = false → s.iswhite (.udata u) = true)

theorem markfinalized_refs (s : State N) (u a : Nat) : ((s.markfinalized u).udata a).refs = (s.udata a).refs := by
  unfold markfinalized setUdata
  by_cases same : a = u
  · subst same
    simp [Udata.refs]
  · simp [same]

theorem separateLoop_separates (all : Bool) (list : List GCRef) : ∀ s : State N,
    Separates all list (s.separateLoop all list).1 s (s.separateLoop all list).2 := by
  induction list with
  | nil => exact fun s => ⟨rfl, fun _ => rfl, List.Perm.refl _, id, .inl⟩
  | cons o rest inductionHypothesis =>
    intro s
    -- an object that stays in the list
    have keep : ∀ {s₁ : State N}, s₁ = { s with udata := s₁.udata } → (∀ a, (s₁.udata a).refs = (s.udata a).refs) →
        Separates all (o :: rest) (o :: (s₁.separateLoop all rest).1) s (s₁.separateLoop all rest).2 := by
      intro s₁ frame refs
      obtain ⟨frame', refs', perm, tmudata, white⟩ := inductionHypothesis s₁
      generalize s₁.separateLoop all rest = result at frame' refs' perm tmudata white
      have tmudata₁ : s₁.tmudata = s.tmudata := by rw [frame]
      have white₁ : s₁.iswhite = s.iswhite := by
        rw [frame]
        rfl
      refine ⟨?_, fun a => (refs' a).trans (refs a), ?_, fun {u} member => ?_, fun {u} member => ?_⟩
      · rw [frame', frame]
      · rw [tmudata₁] at perm
        exact perm.cons o
      · exact tmudata (tmudata₁ ▸ member)
      · rw [← tmudata₁, ← white₁]
        exact white member
    cases o with
    | udata u =>
      unfold separateLoop
      split
      · exact keep rfl fun _ => rfl
      · next bother =>
        split
        · exact keep rfl (markfinalized_refs s u)
        · -- the object moves to the other list
          obtain ⟨frame, refs, perm, tmudata, white⟩ :=
            inductionHypothesis { s.markfinalized u with tmudata := (s.markfinalized u).tmudata ++ [u] }
          refine ⟨frame, fun a => (refs a).trans (markfinalized_refs s u a), ?_,
            fun member => tmudata (List.mem_append_left _ member), fun {v} member => ?_⟩
          · refine perm.trans ?_
            rw [List.map_append, ← List.append_assoc]
            exact List.perm_append_singleton _ _
          · obtain before | isWhite := white member
            · cases List.mem_append.1 before with
              | inl before => exact .inl before
              | inr new =>
                obtain rfl := List.mem_singleton.1 new
                refine .inr fun notAll => ?_
                simp only [notAll, Bool.or_false, Bool.or_eq_true, Bool.not_eq_true', not_or, Bool.not_eq_false] at bother
                exact bother.1
            · exact .inr isWhite
    | string | proto | closure | table | upval | thread => exact keep rfl fun _ => rfl

theorem refers_setLists {udata : Nat → Udata} (refs : ∀ a, (udata a).refs = (s.udata a).refs)
    (tmudata : List Nat) (swept unswept : List GCRef) :
    ({ s with udata, tmudata, swept, unswept } : State N).Refers = s.Refers := by
  funext o r
  cases o with
  | udata a => simp only [Refers, refs]
  | string | proto | closure | table | upval | thread => rfl

theorem Finished.setLists {udata : Nat → Udata} (refs : ∀ a, (udata a).refs = (s.udata a).refs)
    (tmudata : List Nat) (swept unswept : List GCRef) (finished : s.Finished o) :
    ({ s with udata, tmudata, swept, unswept } : State N).Finished o := by
  have refers := refers_setLists refs tmudata swept unswept
  obtain ⟨a, rfl, done⟩ | ⟨a, rfl, clean⟩ | isString | ⟨isOpen, clean⟩ := finished
  · exact .inl ⟨a, rfl, done.listed, done.metatable, done.array, done.node, done.mode⟩
  · exact .inr (.inl ⟨a, rfl, fun r after => clean r (refers ▸ after)⟩)
  · exact .inr (.inr (.inl isString))
  · exact .inr (.inr (.inr ⟨isOpen, fun r after => clean r (refers ▸ after)⟩))

theorem separateudata_marking (sound : s.Sound) (marking : Marking (FinishedOr []) pending s) :
    (s.separateudata false).Sound ∧ Marking (FinishedOr []) pending (s.separateudata false) ∧
      (∀ {u}, u ∈ s.tmudata → u ∈ (s.separateudata false).tmudata) ∧
      ∀ {u}, u ∈ (s.separateudata false).tmudata → u ∈ s.tmudata ∨ s.iswhite (.udata u) = true := by
  obtain ⟨frame, refs, perm, tmudata, white⟩ :=
    separateLoop_separates false (s.rootgc.dropWhile (· != .thread s.mainthread)) s
  have result : s.separateudata false =
      { (s.separateLoop false (s.rootgc.dropWhile (· != .thread s.mainthread))).2 with
        swept := []
        unswept := s.rootgc.takeWhile (· != .thread s.mainthread) ++
          (s.separateLoop false (s.rootgc.dropWhile (· != .thread s.mainthread))).1 } := rfl
  rw [result]
  generalize s.separateLoop false (s.rootgc.dropWhile (· != .thread s.mainthread)) = separated
    at frame refs perm tmudata white ⊢
  obtain ⟨kept, s₁⟩ := separated
  simp only at frame refs perm tmudata white ⊢
  generalize s₁.udata = udata at frame refs
  generalize s₁.tmudata = tms at frame perm tmudata white
  subst frame
  have refers := refers_setLists refs tms [] ((s.rootgc.takeWhile (· != .thread s.mainthread)) ++ kept)
  have sorted : ((s.rootgc.takeWhile (· != .thread s.mainthread) ++ kept) ++ tms.map GCRef.udata).Perm
      (s.rootgc ++ s.tmudata.map GCRef.udata) := by
    have whole := perm.append_left (s.rootgc.takeWhile (· != .thread s.mainthread))
    rwa [← List.append_assoc, ← List.append_assoc, List.takeWhile_append_dropWhile] at whole
  have nodup := sorted.nodup_iff.2 sound.linked.nodup
  have root : ∀ {o}, o ∈ s.rootgc → o ∈ (s.rootgc.takeWhile (· != .thread s.mainthread)) ++ kept ∨
      ∃ u, o = .udata u ∧ u ∈ tms := by
    intro o member
    cases List.mem_append.1 (sorted.mem_iff.2 (List.mem_append_left _ member)) with
    | inl inRoot => exact .inl inRoot
    | inr pending =>
      obtain ⟨u, member, same⟩ := List.mem_map.1 pending
      exact .inr ⟨u, same.symm, member⟩
  have notString : ∀ {a}, .string a ∉ (s.rootgc.takeWhile (· != .thread s.mainthread)) ++ kept := by
    intro a member
    cases List.mem_append.1 (sorted.mem_iff.1 (List.mem_append_left _ member)) with
    | inl inRoot => exact sound.linked.notString inRoot
    | inr pending =>
      obtain ⟨u, -, same⟩ := List.mem_map.1 pending
      cases same
  have linked : ∀ {o}, o ∈ (s.rootgc.takeWhile (· != .thread s.mainthread)) ++ kept →
      s.colour o ≠ none ∧ ¬ s.IsOpen o := by
    intro o member
    cases List.mem_append.1 (sorted.mem_iff.1 (List.mem_append_left _ member)) with
    | inl inRoot => exact sound.linked.allocated inRoot
    | inr pending =>
      obtain ⟨u, before, rfl⟩ := List.mem_map.1 pending
      exact absurd (List.mem_map_of_mem (tmudata before)) (List.disjoint_of_nodup_append nodup member)
  have owned := sound.owned
  refine ⟨⟨⟨owned.string, fun present => ?_, fun {o} traversable present => ?_, fun {u v} present kind => ?_,
    owned.openUpval, owned.openNodup, owned.openList, owned.buckets⟩,
    ⟨fun present after => sound.grounded.allocated present (refers ▸ after)⟩, nodup, linked, notString,
    sound.linked.strings, sound.linked.interned⟩,
    ⟨marking.noDead, fun isBlack holds => marking.black isBlack ?_, marking.notBlack,
      fun isGray => (marking.gray isGray).imp id fun waits => ?_, marking.listed⟩, tmudata,
    fun member => (white member).imp id fun isWhite => isWhite trivial⟩
  · obtain inRoot | pending := owned.udata present
    · obtain inRoot | ⟨u, same, member⟩ := root inRoot
      · exact .inl inRoot
      · cases same
        exact .inr member
    · exact .inr (tmudata pending)
  · refine (root (owned.traversable traversable present)).resolve_right ?_
    rintro ⟨u, rfl, -⟩
    exact traversable
  · refine (root (owned.closedUpval present kind)).resolve_right ?_
    rintro ⟨w, isUdata, -⟩
    cases isUdata
  · obtain after | key := holds
    · exact .inl (refers ▸ after)
    · exact .inr key
  · exact waits.imp id (Finished.setLists refs _ _ _)

/-- The object itself is as it has to be, and so are all others. -/
theorem MarkingBut.marking {waits : State N → GCRef → Prop} (others : MarkingBut waits pending o s)
    (fewer : ∀ {p r}, p ≠ o → pending p r → pending' p r) (noDead : s.colour o ≠ some (.white !s.currentwhite))
    (black : s.colour o = some .black → (∀ r, s.Holds o r → s.NonWhite r) ∧ (∀ a, o ≠ .thread a) ∧ ¬ s.IsOpen o)
    (gray : s.colour o = some .gray → o ∈ s.gray ∨ waits s o)
    (listed : ∀ {o}, o ∈ s.gray ∨ o ∈ s.grayagain ∨ o ∈ s.weak → o.Traversable ∧ s.NonWhite o) :
    Marking waits pending' s := by
  constructor
  · intro r
    by_cases self : r = o
    · subst self
      exact noDead
    · exact others.noDead self
  · intro p r isBlack holds
    by_cases self : p = o
    · subst self
      exact .inl ((black isBlack).1 r holds)
    · exact (others.black self isBlack holds).imp id (fewer self)
  · intro p isBlack
    by_cases self : p = o
    · subst self
      exact (black isBlack).2
    · exact others.notBlack self isBlack
  · intro p isGray
    by_cases self : p = o
    · subst self
      exact gray isGray
    · exact others.gray self isGray
  · exact listed

theorem Traverses.listed {waits : State N → GCRef → Prop} (traverses : Traverses o s s')
    (marking : Marking waits pending s) (nonWhite : o ∈ s'.weak ∨ o ∈ s'.grayagain → o.Traversable ∧ s'.NonWhite o)
    {p : GCRef} (listed : p ∈ s'.gray ∨ p ∈ s'.grayagain ∨ p ∈ s'.weak) : p.Traversable ∧ s'.NonWhite p := by
  have before : ∀ {p}, p ∈ s.gray ∨ p ∈ s.grayagain ∨ p ∈ s.weak → p.Traversable ∧ s'.NonWhite p :=
    fun listed => (marking.listed listed).imp id traverses.nonWhite
  obtain inGray | inAgain | inWeak := listed
  · obtain ⟨new, gray, -, fresh⟩ := traverses.gray
    rw [gray] at inGray
    cases List.mem_append.1 inGray with
    | inl isNew => exact ⟨(fresh p isNew).1, (fresh p isNew).2.2⟩
    | inr old => exact before (.inl old)
  · obtain old | rfl := traverses.grayagain inAgain
    · exact before (.inr (.inl old))
    · exact nonWhite (.inr inAgain)
  · obtain old | rfl := traverses.weak inWeak
    · exact before (.inr (.inr old))
    · exact nonWhite (.inl inWeak)

/-- A preserved userdata and what it refers to are marked, whatever its colour was. -/
theorem marktmudata_traverses (grounded : s.Grounded) {u : Nat} (present : s.colour (.udata u) ≠ none) :
    Traverses (.udata u) s (s.marktmudata u) ∧ (s.marktmudata u).colour (.udata u) = some .black ∧
      (∀ r, (s.marktmudata u).Holds (.udata u) r → (s.marktmudata u).NonWhite r) ∧
      (s.marktmudata u).weak = s.weak ∧ (s.marktmudata u).grayagain = s.grayagain := by
  have same : SameBut (.udata u) s (s.makewhite (.udata u)) := sameBut_paint s _ _
  have isWhite : (s.makewhite (.udata u)).iswhite (.udata u) = true := by
    rw [iswhite_iff]
    refine ⟨s.currentwhite, ?_⟩
    rw [makewhite, colour_paint_self]
    cases colour : s.colour (.udata u) with
    | none => exact absurd colour present
    | some c => rfl
  have grounded₁ : (s.makewhite (.udata u)).Grounded := by
    refine grounded.congr (fun {p r} refers => ?_) fun r => ?_
    · rwa [refers_congr same.background same.table same.thread] at refers
    · by_cases self : r = .udata u
      · subst self
        obtain ⟨bit, white⟩ := iswhite_iff.1 isWhite
        simp [white, present]
      · rw [makewhite, colour_paint_of_ne _ _ self]
  obtain ⟨marks, nonWhite⟩ := reallymarkobject_marks grounded₁ isWhite
  have settled : (s.marktmudata u).Settled (.udata u) := by
    refine (marks.turned isWhite).resolve_left fun unchanged => ?_
    have still := iswhite_congr unchanged
    rw [isWhite, nonWhite.not_white] at still
    cases still
  have first : Traverses (.udata u) (s.makewhite (.udata u)) (s.marktmudata u) := marks.traverses _
  have unpainted : Fades s (s.makewhite (.udata u)) := .of_eq (refers_congr rfl rfl rfl) rfl rfl rfl rfl
  refine ⟨⟨first.background, first.table, first.thread, first.openupval, unpainted.trans first.fades, fun holds => ?_,
    fun _ => nonWhite, fun other notWhite => ?_, fun {r} other white => ?_, ?_, first.weak, first.weak_mono,
    first.grayagain, first.grayagain_mono⟩, ?_⟩
  · have before := first.holds holds
    rwa [holds_congr same.background same.table same.thread] at before
  · rw [first.kept other ((iswhite_congr (same.colour other)).trans notWhite), makewhite, colour_paint_of_ne _ _ other]
  · rw [← same.colour other]
    exact first.turned other ((iswhite_congr (same.colour other)).trans white)
  · obtain ⟨new, gray, nodup, fresh⟩ := marks.gray
    refine ⟨new, gray, nodup, fun p member => ?_⟩
    obtain ⟨traversable, white, nonWhite'⟩ := fresh p member
    have other : p ≠ .udata u := by
      rintro rfl
      exact traversable
    exact ⟨traversable, (iswhite_congr (same.colour other)).symm.trans white, nonWhite'⟩
  · obtain ⟨black, -, clean⟩ | ⟨-, ⟨traversable, -⟩ | isString | ⟨⟨w, th, level, isUpval, -⟩, -⟩⟩ := settled
    · exact ⟨black, clean, marks.weak, marks.grayagain⟩
    · exact absurd traversable id
    · exact absurd isString id
    · cases isUpval

/-- The userdata that were in the list before the mark phase began may have been black; they are marked
like the others. -/
theorem marktmu_marking {left : List GCRef} (us : List Nat) : ∀ {s : State N} {pending : GCRef → GCRef → Prop}, s.Sound →
    Marking (FinishedOr left) pending s → (∀ {o r}, pending o r → ∃ u ∈ us, o = .udata u) →
    (∀ u ∈ us, s.colour (.udata u) ≠ none) →
    (us.foldl marktmudata s).Sound ∧ Marking (FinishedOr left) nothing (us.foldl marktmudata s) ∧
      Advances s (us.foldl marktmudata s) ∧ ∀ u ∈ us, (us.foldl marktmudata s).NonWhite (.udata u) := by
  induction us with
  | nil =>
    intro s pending sound marking confined _
    refine ⟨sound, ⟨marking.noDead, fun black holds => (marking.black black holds).imp id fun isPending => ?_,
      marking.notBlack, marking.gray, marking.listed⟩, Advances.refl _, nofun⟩
    obtain ⟨u, member, -⟩ := confined isPending
    cases member
  | cons u us inductionHypothesis =>
    intro s pending sound marking confined present
    have here := present u List.mem_cons_self
    obtain ⟨traverses, black, clean, weak, grayagain⟩ := marktmudata_traverses sound.grounded here
    have after : (s.marktmudata u).colour (.udata u) ≠ none := by simp [black]
    have others := (marking.but (.udata u)).traverses (finished_stable left) traverses
    have marking₁ : Marking (FinishedOr left) (fun o r => pending o r ∧ o ≠ .udata u) (s.marktmudata u) := by
      refine others.marking (fun other isPending => ⟨isPending, other⟩) (by simp [black]) (fun _ => ⟨clean, nofun, ?_⟩) (fun isGray => ?_) fun listed =>
        traverses.listed marking (fun _ => ?_) listed
      · rintro ⟨w, th, level, isUpval, -⟩
        cases isUpval
      · rw [black] at isGray
        cases isGray
      · next member =>
        rw [weak, grayagain] at member
        exact absurd (marking.listed (.inr member.symm)).1 id
    have confined₁ : ∀ {o r}, pending o r ∧ o ≠ .udata u → ∃ v ∈ us, o = .udata v := by
      rintro o r ⟨isPending, other⟩
      obtain ⟨v, member, rfl⟩ := confined isPending
      exact ⟨v, (List.mem_cons.1 member).resolve_left fun same => other (same ▸ rfl), rfl⟩
    obtain ⟨sound', marking', advances, marked⟩ := inductionHypothesis (traverses.sound here after sound) marking₁ confined₁
      fun v member => (traverses.allocated here after _).2 (present v (List.mem_cons_of_mem _ member))
    refine ⟨sound', marking', (traverses.advances here after).trans advances, fun v member => ?_⟩
    cases List.mem_cons.1 member with
    | inl head =>
      subst head
      exact advances.nonWhite (.inr black)
    | inr tail => exact marked v tail

/-! ## Weak tables -/

theorem markstring_marks (s : State N) (v : TValue N) :
    Marks s (s.markstring v) ∧ ∀ a, v = .string a → s.colour (.string a) ≠ none → (s.markstring v).NonWhite (.string a) := by
  cases v with
  | string a =>
    refine ⟨stringmark_marks s a, fun b same present => ?_⟩
    cases same
    have marks := stringmarks_marks [some a] s
    exact marks.marked (.string a) List.mem_cons_self present
  | nil | boolean | lightuserdata | number | object | deadkey => exact ⟨Marks.refl s, fun b same => by cases same⟩

theorem markstring_gray (s : State N) (v : TValue N) : (s.markstring v).gray = s.gray := by
  cases v <;> rfl

theorem markstrings_marks (vs : List (TValue N)) : ∀ s : State N, Marks s (vs.foldl markstring s) ∧
    (vs.foldl markstring s).gray = s.gray ∧
    ∀ a, .string a ∈ vs → s.colour (.string a) ≠ none → (vs.foldl markstring s).NonWhite (.string a) := by
  induction vs with
  | nil => exact fun s => ⟨Marks.refl s, rfl, by simp⟩
  | cons v vs inductionHypothesis =>
    intro s
    obtain ⟨first, marked⟩ := markstring_marks s v
    obtain ⟨rest, gray, marked'⟩ := inductionHypothesis (s.markstring v)
    refine ⟨first.trans rest, gray.trans (markstring_gray s v), fun a member present => ?_⟩
    cases List.mem_cons.1 member with
    | inl head => exact rest.nonWhite (marked a head.symm present)
    | inr tail => exact marked' a tail (first.allocated.2 present)

/-- All that the table refers to has been marked. -/
def Cleared (s : State N) (a : Nat) : Prop := ∀ r, (s.table a).Refers r → s.NonWhite r

/-- A value that is not cleared is a string or has been marked. -/
theorem nonWhite_of_not_cleared {v : TValue N} {iskey : Bool} (notCleared : s.iscleared v iskey = false)
    (isRef : gcvalue v = some r) (present : s.colour r ≠ none) (notString : ¬ r.IsString) : s.NonWhite r := by
  refine nonWhite_of_not_white present ?_
  unfold iscleared at notCleared
  rw [isRef] at notCleared
  cases r with
  | string a => exact absurd trivial notString
  | udata a =>
    simp only [Bool.or_eq_false_iff] at notCleared
    exact notCleared.1
  | proto | closure | table | upval | thread => exact notCleared

/-- The table without its collected entries. -/
def cleared (s : State N) (a : Nat) : TableObject N := { s.table a with h := s.clearedTable (s.table a) }

theorem cleared_array {a i : Nat} (isRef : gcvalue ((s.cleared a).h.array i) = some r) :
    gcvalue ((s.table a).h.array i) = some r ∧
      ((s.table a).weakvalue = true → s.iscleared ((s.table a).h.array i) false = false) := by
  simp only [cleared, clearedTable] at isRef
  split at isRef
  · cases isRef
  · next keep =>
    refine ⟨isRef, fun isWeak => ?_⟩
    simpa [isWeak] using keep

theorem cleared_node {a i : Nat} (used : ((s.cleared a).h.node i).val ≠ .nil) :
    (s.cleared a).h.node i = (s.table a).h.node i ∧ s.iscleared ((s.table a).h.node i).key true = false ∧
      s.iscleared ((s.table a).h.node i).val false = false := by
  simp only [cleared, clearedTable] at used ⊢
  split at used
  · exact absurd rfl used
  · next keep =>
    rw [if_neg keep]
    have isUsed : ((s.table a).h.node i).val.isNil = false := by simpa using used
    simp only [isUsed, Bool.not_false, Bool.true_and, Bool.or_eq_true, not_or, Bool.not_eq_true] at keep
    exact ⟨rfl, keep⟩

theorem cleared_dwindles (s : State N) (a : Nat) : (s.table a).Dwindles (s.cleared a) where
  metatable := rfl
  sizearray := rfl
  sizenode := rfl
  isDummy := rfl
  array i := by
    simp only [cleared, clearedTable]
    split
    · exact .inr rfl
    · exact .inl rfl
  node i := by
    simp only [cleared, clearedTable]
    split
    · exact .inr ⟨rfl, gcvalue_deadkey _⟩
    · exact .inl rfl
  names i k m key val := by simp [cleared, clearedTable, key, val, iscleared, gcvalue]

theorem cleared_refers {a : Nat} (refers : (s.cleared a).Refers r) : (s.table a).Refers r :=
  (cleared_dwindles s a).refers refers

theorem cleared_key {a i : Nat} (isRef : gcvalue ((s.cleared a).h.node i).key = some r) :
    gcvalue ((s.table a).h.node i).key = some r := by
  simp only [cleared, clearedTable] at isRef
  split at isRef
  · simp [gcvalue_deadkey] at isRef
  · exact isRef

theorem cleartable_traverses {a : Nat} (nonWhite : s.NonWhite (.table a)) :
    Traverses (.table a) s (s.cleartable (.table a)) ∧
      (s.cleartable (.table a)).colour (.table a) = s.colour (.table a) ∧
      (s.cleartable (.table a)).table a = s.cleared a ∧
      (s.cleartable (.table a)).weak = s.weak ∧ (s.cleartable (.table a)).grayagain = s.grayagain ∧
      (s.cleartable (.table a)).gray = s.gray ∧
      ∀ b, .string b ∈ s.lookedAt (s.table a) → s.colour (.string b) ≠ none →
        (s.cleartable (.table a)).NonWhite (.string b) := by
  obtain ⟨marks, gray, marked⟩ := markstrings_marks (s.lookedAt (s.table a)) s
  have result : s.cleartable (.table a) =
      ((s.lookedAt (s.table a)).foldl markstring s).setTable a (s.cleared a) := rfl
  rw [result]
  generalize (s.lookedAt (s.table a)).foldl markstring s = s₁ at marks gray marked
  refine ⟨(marks.traverses _).trans (setTable_traverses ?_ fun {i r} inside isRef => ?_) nonWhite,
    marks.kept nonWhite.not_white, by simp only [setTable, Function.update_self], marks.weak, marks.grayagain, gray, marked⟩
  · rw [marks.table]
    exact cleared_dwindles s a
  · refine .inr ⟨a, rfl, i, ?_, ?_⟩
    · rw [marks.table]
      exact inside
    · rw [marks.table]
      exact cleared_key isRef

/-- What is left in a weak table has been marked. -/
theorem WeakDone.cleared {a : Nat} (done : s.WeakDone a) (grounded : s.Grounded) (nonWhite : s.NonWhite (.table a)) :
    (s.cleartable (.table a)).Cleared a := by
  obtain ⟨traverses, -, table, -, -, -, marked⟩ := @cleartable_traverses _ s a nonWhite
  intro r refers
  rw [table] at refers
  have present : s.colour r ≠ none :=
    grounded.allocated nonWhite.allocated (show s.Refers (.table a) r from cleared_refers refers)
  -- a value that was looked at and not cleared
  have value : ∀ {v iskey}, v ∈ s.lookedAt (s.table a) → gcvalue v = some r → s.iscleared v iskey = false →
      (s.cleartable (.table a)).NonWhite r := by
    intro v iskey looked isRef notCleared
    by_cases isString : r.IsString
    · cases r with
      | string b =>
        have same : v = .string b := by
          cases v with
          | object tt o => cases tt <;> simp [gcvalue] at isRef
          | string c => simpa [gcvalue] using isRef
          | nil | boolean | lightuserdata | number | deadkey => simp [gcvalue] at isRef
        exact marked b (same ▸ looked) present
      | udata | proto | closure | table | upval | thread => exact absurd isString id
    · exact traverses.nonWhite (nonWhite_of_not_cleared notCleared isRef present isString)
  obtain isMetatable | ⟨i, inside, isRef⟩ | ⟨i, inside, used, isRef⟩ := refers
  · obtain ⟨m, same, rfl⟩ := Option.map_eq_some_iff.1 isMetatable
    exact traverses.nonWhite (done.metatable m same)
  · obtain ⟨isRef, notCleared⟩ := cleared_array isRef
    cases weakvalue : (s.table a).weakvalue with
    | false => exact traverses.nonWhite (done.array weakvalue i inside r isRef)
    | true =>
      refine value (List.mem_append_left _ ?_) isRef (notCleared weakvalue)
      simp only [weakvalue, if_true]
      exact mem_arrayValues.2 ⟨i, inside, rfl⟩
  · obtain ⟨same, keyKept, valueKept⟩ := cleared_node used
    rw [same] at used isRef
    have node : (s.table a).h.node i ∈ liveNodes (s.table a).h := mem_liveNodes.2 ⟨i, inside, rfl, used⟩
    obtain isKey | isValue := isRef
    · refine value (List.mem_append_right _ (List.mem_flatMap.2 ⟨_, node, List.mem_cons_self⟩)) isKey keyKept
    · refine value (List.mem_append_right _ (List.mem_flatMap.2 ⟨_, node, ?_⟩)) isValue valueKept
      simp [keyKept]

theorem cleartable_marking {a : Nat} (sound : s.Sound) (marking : Marking (FinishedOr []) nothing s)
    (isGray : s.gray = []) (listed : .table a ∈ s.weak) :
    (s.cleartable (.table a)).Sound ∧ Marking (FinishedOr []) nothing (s.cleartable (.table a)) ∧
      (s.cleartable (.table a)).gray = [] ∧ (s.cleartable (.table a)).Cleared a := by
  have nonWhite := (marking.listed (.inr (.inr listed))).2
  obtain ⟨traverses, colour, table, weak, grayagain, gray', -⟩ := @cleartable_traverses _ s a nonWhite
  have finished : s.colour (.table a) = some .gray → s.WeakDone a := by
    intro gray
    obtain inGray | isLeft | ⟨b, same, done⟩ | ⟨b, same, -⟩ | isString | ⟨⟨u, th, level, same, -⟩, -⟩ := marking.gray gray
    · rw [isGray] at inGray
      cases inGray
    · cases isLeft
    · cases same
      exact done
    · cases same
    · exact absurd isString id
    · cases same
  have clean : s.colour (.table a) = some .black → ∀ r, (s.cleartable (.table a)).Holds (.table a) r →
      (s.cleartable (.table a)).NonWhite r := fun black r holds =>
    traverses.nonWhite ((marking.black black (traverses.holds holds)).resolve_right id)
  have after := (traverses.self nonWhite).allocated
  have others := (marking.but (.table a)).traverses (finished_stable []) traverses
  refine ⟨traverses.sound nonWhite.allocated after sound, others.marking (fun _ => id) ?_ (fun black => ?_) (fun gray => ?_)
    fun {p} member => ?_, ?_, fun r refers => ?_⟩
  · exact (traverses.self nonWhite).ne_white _
  · rw [colour] at black
    refine ⟨clean black, nofun, ?_⟩
    rintro ⟨u, th, level, same, -⟩
    cases same
  · rw [colour] at gray
    obtain ⟨listed', metatable, array, node, mode⟩ := finished gray
    refine .inr (.inr (.inl ⟨a, rfl, weak ▸ listed', fun m isMetatable => ?_, fun strong i inside r isRef => ?_,
      fun i inside used r which => ?_, ?_⟩))
    · rw [table] at isMetatable
      exact traverses.nonWhite (metatable m isMetatable)
    · rw [table] at strong inside isRef
      exact traverses.nonWhite (array strong i inside r (cleared_array isRef).1)
    · rw [table] at inside used which
      have same := (cleared_node used).1
      rw [same] at used which
      exact traverses.nonWhite (node i inside used r which)
    · rw [table]
      exact ⟨fun strong => mode.1 ((traverses.fades.mode a).1 strong),
        fun strong => mode.2 ((traverses.fades.mode a).2 strong)⟩
  · refine traverses.listed marking (fun member => ?_) member
    rw [weak, grayagain] at member
    exact (marking.listed (.inr member.symm)).imp id traverses.nonWhite
  · rw [gray', isGray]
  · obtain gray | black := id nonWhite
    · exact (finished gray).cleared sound.grounded nonWhite r refers
    · exact clean black r (.inl refers)

/-- After the loop of `cleartable` every table on the list is free of references to white objects. -/
theorem cleartables_marking (tables : List GCRef) : ∀ {s : State N}, s.Sound → Marking (FinishedOr []) nothing s →
    s.gray = [] → (∀ o ∈ tables, o ∈ s.weak) →
    let s' := tables.foldl cleartable s
    s'.Sound ∧ Marking (FinishedOr []) nothing s' ∧ s'.gray = [] ∧ Advances s s' ∧ s'.weak = s.weak ∧
      ∀ a, (.table a ∈ tables ∨ s.Cleared a) → s'.Cleared a := by
  induction tables with
  | nil => exact fun sound marking isGray _ => ⟨sound, marking, isGray, Advances.refl _, rfl, by simp⟩
  | cons o tables inductionHypothesis =>
    intro s sound marking isGray listed
    have inWeak := listed o List.mem_cons_self
    simp only [List.foldl_cons]
    by_cases isTable : ∃ a, o = .table a
    · obtain ⟨a, rfl⟩ := isTable
      have nonWhite := (marking.listed (.inr (.inr inWeak))).2
      obtain ⟨traverses, -, table, weak, -⟩ := @cleartable_traverses _ s a nonWhite
      obtain ⟨sound₁, marking₁, isGray₁, clear⟩ := cleartable_marking sound marking isGray inWeak
      obtain ⟨sound', marking', isGray', advances, weak', clear'⟩ := inductionHypothesis sound₁ marking₁ isGray₁
        fun p member => weak ▸ listed p (List.mem_cons_of_mem _ member)
      refine ⟨sound', marking', isGray', (traverses.advances nonWhite.allocated (traverses.self nonWhite).allocated).trans
        advances, weak'.trans weak, fun b which => clear' b ?_⟩
      by_cases same : b = a
      · subst same
        exact .inr clear
      · obtain member | before := which
        · refine .inl ((List.mem_cons.1 member).resolve_left fun isSame => same ?_)
          cases isSame
          rfl
        · refine .inr fun r refers => ?_
          rw [traverses.table (by simpa using same)] at refers
          exact traverses.nonWhite (before r refers)
    · have unchanged : s.cleartable o = s := by
        cases o with
        | table a => exact absurd ⟨a, rfl⟩ isTable
        | string | udata | proto | closure | upval | thread => rfl
      rw [unchanged]
      obtain ⟨sound', marking', isGray', advances, weak', clear'⟩ := inductionHypothesis sound marking isGray
        fun p member => listed p (List.mem_cons_of_mem _ member)
      refine ⟨sound', marking', isGray', advances, weak', fun b which => clear' b (which.imp (fun member => ?_) id)⟩
      refine (List.mem_cons.1 member).resolve_left fun isSame => isTable ⟨b, isSame.symm⟩

/-! ## The whole step -/

theorem Root.congr (root : s'.Root r) (mainthread : s'.mainthread = s.mainthread) (registry : s'.registry = s.registry)
    (mt : s'.mt = s.mt) (running : s'.running = s.running) : s.Root r := by
  cases root with
  | mainthread =>
    rw [mainthread]
    exact .mainthread
  | registry =>
    rw [registry]
    exact .registry
  | mt tag isMetatable =>
    rw [mt] at isMetatable
    exact .mt tag isMetatable
  | running =>
    rw [running]
    exact .running

theorem Advances.root (advances : Advances s s') (root : s'.Root r) : s.Root r :=
  root.congr (by rw [advances.background]) (by rw [advances.background]) (by rw [advances.background])
    (by rw [advances.background])

theorem separateudata_frame (s : State N) (all : Bool) : ∃ udata tmudata unswept,
    (∀ a, (udata a).refs = (s.udata a).refs) ∧
      s.separateudata all = { s with udata, tmudata, swept := [], unswept } := by
  have refs := (separateLoop_separates all (s.rootgc.dropWhile (· != .thread s.mainthread)) s).refs
  have frame := (separateLoop_separates all (s.rootgc.dropWhile (· != .thread s.mainthread)) s).frame
  have result : s.separateudata all =
      { (s.separateLoop all (s.rootgc.dropWhile (· != .thread s.mainthread))).2 with
        swept := []
        unswept := s.rootgc.takeWhile (· != .thread s.mainthread) ++
          (s.separateLoop all (s.rootgc.dropWhile (· != .thread s.mainthread))).1 } := rfl
  rw [result]
  generalize (s.separateLoop all (s.rootgc.dropWhile (· != .thread s.mainthread))).2 = s₁ at refs frame ⊢
  rw [frame]
  exact ⟨s₁.udata, s₁.tmudata, _, refs, rfl⟩

/-- The objects that are left after the mark phase refer to each other only. -/
structure Marked (s : State N) : Prop where
  sound : s.Sound
  noDead : ∀ {r}, s.colour r ≠ some (.white !s.currentwhite)
  notOpen : ∀ {o}, s.colour o = some .black → ¬ s.IsOpen o
  closed : ∀ {o r}, s.NonWhite o → s.Refers o r → s.NonWhite r
  root : ∀ {r}, s.Root r → s.NonWhite r
  tmudata : ∀ {u}, u ∈ s.tmudata → s.NonWhite (.udata u)
  notGray : s.NoGrayUdata

/-- Nothing gray is left but what has been traversed in the atomic step. -/
theorem Marking.marked (sound : s.Sound) (marking : Marking (FinishedOr []) nothing s) (isGray : s.gray = [])
    (clear : ∀ {a}, .table a ∈ s.weak → s.Cleared a) (root : ∀ {r}, s.Root r → s.NonWhite r)
    (tmudata : ∀ {u}, u ∈ s.tmudata → s.NonWhite (.udata u)) : s.Marked where
  sound := sound
  tmudata := tmudata
  noDead := marking.noDead
  notOpen black := (marking.notBlack black).2
  root := root
  notGray u isGray' := by
    obtain inGray | isLeft | ⟨a, same, -⟩ | ⟨a, same, -⟩ | isString | ⟨⟨v, th, level, same, -⟩, -⟩ := marking.gray isGray'
    · rw [isGray] at inGray
      cases inGray
    · cases isLeft
    · cases same
    · cases same
    · exact absurd isString id
    · cases same
  closed {o r} nonWhite refers := by
    obtain gray | black := nonWhite
    · obtain inGray | isLeft | ⟨a, rfl, done⟩ | ⟨a, rfl, clean⟩ | isString | ⟨-, clean⟩ := marking.gray gray
      · rw [isGray] at inGray
        cases inGray
      · cases isLeft
      · exact clear done.listed r refers
      · exact clean r refers
      · cases o with
        | string a => exact absurd refers id
        | udata | proto | closure | table | upval | thread => exact absurd isString id
      · exact clean r refers
    · exact (marking.black black (.inl refers)).resolve_right id

/-- The state between two parts of the atomic step; the objects in `left` are still to be traversed. -/
structure Remarked (pending : GCRef → GCRef → Prop) (left : List GCRef) (s : State N) : Prop where
  sound : s.Sound
  marking : Marking (FinishedOr left) pending s
  gray : s.gray = []

/-- The roots stay what they are, nothing is freed, and what has been marked stays marked. -/
structure Keeps (s s' : State N) : Prop where
  root : ∀ {r}, s'.Root r → s.Root r
  allocated : ∀ r, s'.colour r ≠ none ↔ s.colour r ≠ none
  nonWhite : ∀ {r}, s.NonWhite r → s'.NonWhite r
  fixed : s'.fixed = s.fixed
  mainthread : s'.mainthread = s.mainthread
  fades : Fades s s'
  strt : s'.strt = s.strt

theorem Keeps.trans {s₁ s₂ : State N} (first : Keeps s s₁) (second : Keeps s₁ s₂) : Keeps s s₂ :=
  ⟨fun root => first.root (second.root root), fun r => (second.allocated r).trans (first.allocated r),
    fun before => second.nonWhite (first.nonWhite before), second.fixed.trans first.fixed,
    second.mainthread.trans first.mainthread, first.fades.trans second.fades, second.strt.trans first.strt⟩

theorem Advances.keeps (advances : Advances s s') : Keeps s s' :=
  ⟨advances.root, advances.allocated, advances.nonWhite, by rw [advances.background], by rw [advances.background],
    advances.fades, by rw [advances.background]⟩

theorem Propagated.remarked {left : List GCRef} (propagated : Propagated (FinishedOr left) pending s s') :
    Remarked pending left s' :=
  ⟨propagated.sound, propagated.marking, propagated.gray⟩

theorem remarkupvals_remarked (sound : s.Sound) (marking : Marking Postponed pending s) :
    Remarked pending (s.grayagain ++ s.weak) s.remarkupvals.propagateall ∧ Advances s s.remarkupvals.propagateall := by
  have marks : Marks s s.remarkupvals := (remarkupvals_marks s.uvhead sound.grounded).1
  have propagated := propagateall_spec (marks.sound sound) (remarkupvals_marking sound marking) (finished_stable _)
  exact ⟨propagated.remarked, marks.advances.trans propagated.advances⟩

def remarkweak (s : State N) : State N :=
  let s := { s with gray := s.weak, weak := [] }
  (s.markobject (.thread s.running)).markmt.propagateall

theorem remarkweak_remarked {again weak : List GCRef} (remarked : Remarked pending (again ++ weak) s)
    (inAgain : ∀ o ∈ again, o ∈ s.grayagain) (inWeak : ∀ o ∈ weak, o ∈ s.weak)
    (present : ∀ {r}, s.Root r → s.colour r ≠ none) :
    Remarked pending again s.remarkweak ∧ Keeps s s.remarkweak ∧ s.remarkweak.tmudata = s.tmudata ∧
      (∀ o ∈ again, o ∈ s.remarkweak.grayagain) ∧
      s.remarkweak.NonWhite (.thread s.running) ∧
      ∀ tag a, s.mt tag = some a → s.remarkweak.NonWhite (.table a) := by
  have marking : Marking (FinishedOr again) pending { s with gray := s.weak, weak := [] } := by
    refine remarked.marking.rearrange (fun {o} _ which => ?_) fun {o} which => ?_
    · obtain inGray | isLeft | ⟨a, rfl, done⟩ | finished := which
      · rw [remarked.gray] at inGray
        cases inGray
      · cases List.mem_append.1 isLeft with
        | inl isAgain => exact .inr (.inl isAgain)
        | inr isWeak => exact .inl (inWeak o isWeak)
      · exact .inl done.listed
      · refine .inr (.inr (.inr ?_))
        have refers : ({ s with gray := s.weak, weak := [] } : State N).Refers = s.Refers := refers_congr rfl rfl rfl
        obtain ⟨a, rfl, clean⟩ | isString | ⟨isOpen, clean⟩ := finished
        · exact .inl ⟨a, rfl, fun r after => clean r (refers ▸ after)⟩
        · exact .inr (.inl isString)
        · exact .inr (.inr ⟨isOpen, fun r after => clean r (refers ▸ after)⟩)
    · obtain isWeak | isAgain | none := which
      · exact .inr (.inr isWeak)
      · exact .inr (.inl isAgain)
      · cases none
  have sound := remarked.sound.setLists s.weak s.grayagain []
  have keeps : Keeps s { s with gray := s.weak, weak := [] } :=
    ⟨fun root => root.congr rfl rfl rfl rfl, fun _ => Iff.rfl, id, rfl, rfl, .of_eq (refers_congr rfl rfl rfl) rfl rfl rfl rfl,
      rfl⟩
  have running := present Root.running
  have metatables : ∀ tag a, s.mt tag = some a → s.colour (.table a) ≠ none := fun tag a isMetatable =>
    present (Root.mt tag isMetatable)
  unfold remarkweak
  simp only
  have again₀ : ({ s with gray := s.weak, weak := [] } : State N).grayagain = s.grayagain := rfl
  have mt₀ : ({ s with gray := s.weak, weak := [] } : State N).mt = s.mt := rfl
  have tmudata₀ : ({ s with gray := s.weak, weak := [] } : State N).tmudata = s.tmudata := rfl
  have present₀ := keeps.allocated
  generalize ({ s with gray := s.weak, weak := [] } : State N) = s₁ at *
  have first := markobject_marks sound.grounded (.thread s.running)
  obtain ⟨second, marked⟩ := markmt_marks (s₁.markobject (.thread s.running))
  have marks := first.toMarks.trans second
  have propagated := propagateall_spec (marks.sound sound) (marking.marks (finished_stable again) marks .inr)
    (finished_stable again)
  have advances := marks.advances.trans propagated.advances
  refine ⟨propagated.remarked, keeps.trans advances.keeps, ?_, fun o isAgain => ?_, ?_, fun tag a isMetatable => ?_⟩
  · rw [advances.background, tmudata₀]
  · exact advances.grayagain (again₀ ▸ inAgain o isAgain)
  · exact propagated.advances.nonWhite (second.nonWhite (first.marked ((present₀ _).2 running)))
  · refine propagated.advances.nonWhite (marked tag a ?_ (first.toMarks.allocated.2 ((present₀ _).2 ?_)))
    · rw [first.background, mt₀]
      exact isMetatable
    · exact metatables tag a isMetatable

def remarkagain (s : State N) : State N := { s with gray := s.grayagain, grayagain := [] }.propagateall

theorem remarkagain_remarked {again : List GCRef} (remarked : Remarked pending again s)
    (inAgain : ∀ o ∈ again, o ∈ s.grayagain) : Remarked pending [] s.remarkagain ∧ Keeps s s.remarkagain ∧ s.remarkagain.tmudata = s.tmudata := by
  have marking : Marking (FinishedOr []) pending { s with gray := s.grayagain, grayagain := [] } := by
    refine remarked.marking.rearrange (fun {o} _ which => ?_) fun {o} which => ?_
    · obtain inGray | isLeft | finished := which
      · rw [remarked.gray] at inGray
        cases inGray
      · exact .inl (inAgain o isLeft)
      · refine .inr (.inr ?_)
        have refers : ({ s with gray := s.grayagain, grayagain := [] } : State N).Refers = s.Refers :=
          refers_congr rfl rfl rfl
        obtain ⟨a, rfl, done⟩ | ⟨a, rfl, clean⟩ | isString | ⟨isOpen, clean⟩ := finished
        · exact .inl ⟨a, rfl, done.listed, done.metatable, done.array, done.node, done.mode⟩
        · exact .inr (.inl ⟨a, rfl, fun r after => clean r (refers ▸ after)⟩)
        · exact .inr (.inr (.inl isString))
        · exact .inr (.inr (.inr ⟨isOpen, fun r after => clean r (refers ▸ after)⟩))
    · obtain isAgain | none | isWeak := which
      · exact .inr (.inl isAgain)
      · cases none
      · exact .inr (.inr isWeak)
  have keeps : Keeps s { s with gray := s.grayagain, grayagain := [] } :=
    ⟨fun root => root.congr rfl rfl rfl rfl, fun _ => Iff.rfl, id, rfl, rfl, .of_eq (refers_congr rfl rfl rfl) rfl rfl rfl rfl,
      rfl⟩
  have propagated := propagateall_spec (remarked.sound.setLists s.grayagain [] s.weak) marking (finished_stable [])
  exact ⟨propagated.remarked, keeps.trans propagated.advances.keeps, by rw [remarkagain, propagated.advances.background]⟩

def preserve (s : State N) : State N := (s.separateudata false).marktmu.propagateall

/-- Userdata that have to be finalized live on, with all that they refer to; those that waited for
that before the mark phase are among them. -/
theorem preserve_remarked (remarked : Remarked pending [] s)
    (confined : ∀ {o r}, pending o r → ∃ u ∈ s.tmudata, o = .udata u)
    (waiting : ∀ u ∈ s.tmudata, s.colour (.udata u) ≠ none) :
    Remarked nothing [] s.preserve ∧ Keeps s s.preserve ∧ ∀ {u}, u ∈ s.preserve.tmudata → s.preserve.NonWhite (.udata u) := by
  obtain ⟨sound, marking, stays, white⟩ := separateudata_marking remarked.sound remarked.marking
  obtain ⟨udata, tmudata, unswept, refs, frame⟩ := separateudata_frame s false
  have same : (s.separateudata false).colour = s.colour := by
    rw [frame]
    rfl
  have present : ∀ u ∈ (s.separateudata false).tmudata, (s.separateudata false).colour (.udata u) ≠ none := by
    intro u member
    rw [same]
    obtain before | isWhite := white member
    · exact waiting u before
    · obtain ⟨bit, isWhite⟩ := iswhite_iff.1 isWhite
      rw [isWhite]
      nofun
  have confined' : ∀ {o r}, pending o r → ∃ u ∈ (s.separateudata false).tmudata, o = .udata u := fun isPending =>
    (confined isPending).imp fun _ both => ⟨stays both.1, both.2⟩
  obtain ⟨sound', marking', advances, marked⟩ :=
    marktmu_marking (s.separateudata false).tmudata sound marking confined' present
  have propagated := propagateall_spec sound' marking' (finished_stable [])
  have whole := advances.trans propagated.advances
  have separates : Keeps s (s.separateudata false) := by
    rw [frame]
    exact ⟨fun root => root.congr rfl rfl rfl rfl, fun _ => Iff.rfl, id, rfl, rfl,
      .of_eq (refers_setLists refs _ _ _) rfl rfl rfl rfl, rfl⟩
  refine ⟨propagated.remarked, separates.trans whole.keeps, fun {u} member => propagated.advances.nonWhite (marked u ?_)⟩
  have tmudata : s.preserve.tmudata = (s.separateudata false).tmudata := by
    rw [preserve]
    exact congrArg Background.tmudata whole.background
  exact tmudata ▸ member

theorem clearweak_marked (remarked : Remarked nothing [] s) (root : ∀ {r}, s.Root r → s.NonWhite r)
    (tmudata : ∀ {u}, u ∈ s.tmudata → s.NonWhite (.udata u)) :
    (s.weak.foldl cleartable s).Marked ∧ Keeps s (s.weak.foldl cleartable s) := by
  obtain ⟨sound, marking, isGray, advances, weak, clear⟩ :=
    cleartables_marking s.weak remarked.sound remarked.marking remarked.gray fun _ member => member
  refine ⟨marking.marked sound isGray (fun {a} listed => clear a (.inl (weak ▸ listed))) (fun isRoot => ?_)
    fun member => ?_, advances.keeps⟩
  · exact advances.nonWhite (root (advances.root isRoot))
  · rw [advances.background] at member
    exact advances.nonWhite (tmudata member)

/-- `atomic` up to the flip. -/
def finishMarking (s : State N) : State N :=
  let s := s.remarkupvals.propagateall.remarkweak.remarkagain.preserve
  s.weak.foldl cleartable s

/-- `atomic` up to the removal of collected objects from weak tables. -/
def markRest (s : State N) : State N := s.remarkupvals.propagateall.remarkweak.remarkagain.preserve

/-- The state when all marking is done. -/
structure AllMarked (s : State N) : Prop where
  remarked : Remarked nothing [] s
  root : ∀ {r}, s.Root r → s.NonWhite r
  tmudata : ∀ {u}, u ∈ s.tmudata → s.NonWhite (.udata u)

/-- The state when all that the program can reach has been marked. -/
theorem remarked_reached (sound : s.Sound) (marking : Marking Postponed pending s)
    (present : ∀ {r}, s.Root r → s.colour r ≠ none) :
    let s' := s.remarkupvals.propagateall.remarkweak.remarkagain
    Remarked pending [] s' ∧ Keeps s s' ∧ s'.tmudata = s.tmudata ∧ s'.NonWhite (.thread s.running) ∧
      ∀ tag a, s.mt tag = some a → s'.NonWhite (.table a) := by
  obtain ⟨remarked₁, advances⟩ := remarkupvals_remarked sound marking
  have again₁ : ∀ o ∈ s.grayagain, o ∈ s.remarkupvals.propagateall.grayagain := fun _ member => advances.grayagain member
  have weak₁ : ∀ o ∈ s.weak, o ∈ s.remarkupvals.propagateall.weak := fun _ member => advances.weak member
  have tmudata₁ : s.remarkupvals.propagateall.tmudata = s.tmudata := by rw [advances.background]
  have running₁ : s.remarkupvals.propagateall.running = s.running := by rw [advances.background]
  have mt₁ : s.remarkupvals.propagateall.mt = s.mt := by rw [advances.background]
  have keeps₁ := advances.keeps
  clear advances
  generalize s.remarkupvals.propagateall = s₁ at *
  obtain ⟨remarked₂, keeps₂, tmudata₂, again₂, running, metatables⟩ := remarkweak_remarked remarked₁ again₁ weak₁
    fun root => (keeps₁.allocated _).2 (present (keeps₁.root root))
  generalize s₁.remarkweak = s₂ at *
  obtain ⟨remarked₃, keeps₃, tmudata₃⟩ := remarkagain_remarked remarked₂ again₂
  exact ⟨remarked₃, keeps₁.trans (keeps₂.trans keeps₃), tmudata₃.trans (tmudata₂.trans tmudata₁),
    keeps₃.nonWhite (running₁ ▸ running), fun tag a isMetatable => keeps₃.nonWhite (metatables tag a (mt₁ ▸ isMetatable))⟩

theorem markRest_allMarked (sound : s.Sound) (marking : Marking Postponed pending s)
    (confined : ∀ {o r}, pending o r → ∃ u ∈ s.tmudata, o = .udata u)
    (waiting : ∀ u ∈ s.tmudata, s.colour (.udata u) ≠ none)
    (marked : s.NonWhite (.thread s.mainthread) ∧ s.NonWhite (.table s.registry))
    (present : ∀ {r}, s.Root r → s.colour r ≠ none) : s.markRest.AllMarked ∧ Keeps s s.markRest := by
  unfold markRest
  obtain ⟨remarked, keeps, tmudata, running, metatables⟩ := remarked_reached sound marking present
  generalize s.remarkupvals.propagateall.remarkweak.remarkagain = s' at *
  rw [← tmudata] at waiting
  simp only [← tmudata] at confined
  obtain ⟨remarked', keeps', finalized⟩ := preserve_remarked remarked confined
    fun u member => (keeps.allocated _).2 (waiting u member)
  refine ⟨⟨remarked', fun isRoot => keeps'.nonWhite ?_, finalized⟩, keeps.trans keeps'⟩
  cases keeps.root (keeps'.root isRoot) with
  | mainthread => exact keeps.nonWhite marked.1
  | registry => exact keeps.nonWhite marked.2
  | mt tag isMetatable => exact metatables tag _ isMetatable
  | running => exact running

theorem finishMarking_marked (sound : s.Sound) (marking : Marking Postponed pending s)
    (confined : ∀ {o r}, pending o r → ∃ u ∈ s.tmudata, o = .udata u)
    (waiting : ∀ u ∈ s.tmudata, s.colour (.udata u) ≠ none)
    (marked : s.NonWhite (.thread s.mainthread) ∧ s.NonWhite (.table s.registry))
    (present : ∀ {r}, s.Root r → s.colour r ≠ none) : s.finishMarking.Marked ∧ Keeps s s.finishMarking := by
  obtain ⟨allMarked, keeps⟩ := markRest_allMarked sound marking confined waiting marked present
  obtain ⟨isMarked, keeps'⟩ := clearweak_marked allMarked.remarked allMarked.root allMarked.tmudata
  exact ⟨isMarked, keeps.trans keeps'⟩

theorem atomic_eq (s : State N) : s.atomic =
    { s.finishMarking with
      currentwhite := !s.finishMarking.currentwhite, sweepstrgc := 0, swept := []
      unswept := s.finishMarking.rootgc, gcstate := .sweepstring } := by
  simp only [atomic, finishMarking, preserve, remarkagain, remarkweak]

end Gafq.GC.State
