import Gafq.Verified.GC.Fading

/-! # Propagation

`propagatemark` takes one object off the gray list and marks what it refers to.  The object turns
black, unless it is a thread or a weak table, which stay gray and are traversed again later.
-/

namespace Gafq.GC.State

variable {N : Type} {s s' s₁ s₂ : State N} {o p r : GCRef}

/-! ## The effect of a traversal -/

/-- What the traversal of `o` does to the rest of the heap.  It may also drop references: keys of
empty entries and stack slots that are not in use. -/
structure Traverses (o : GCRef) (s s' : State N) : Prop where
  background : s'.toBackground = s.toBackground
  table : ∀ {a}, .table a ≠ o → s'.table a = s.table a
  thread : ∀ {a}, .thread a ≠ o → s'.thread a = s.thread a
  openupval : ∀ a, (s'.thread a).openupval = (s.thread a).openupval
  fades : Fades s s'
  holds : ∀ {p r}, s'.Holds p r → s.Holds p r
  self : s.NonWhite o → s'.NonWhite o
  kept : ∀ {r}, r ≠ o → s.iswhite r = false → s'.colour r = s.colour r
  turned : ∀ {r}, r ≠ o → s.iswhite r = true → s'.colour r = s.colour r ∨ s'.Settled r
  gray : ∃ new, s'.gray = new ++ s.gray ∧ new.Nodup ∧ ∀ p ∈ new, p.Traversable ∧ s.iswhite p = true ∧ s'.NonWhite p
  weak : ∀ {p}, p ∈ s'.weak → p ∈ s.weak ∨ p = o
  weak_mono : ∀ {p}, p ∈ s.weak → p ∈ s'.weak
  grayagain : ∀ {p}, p ∈ s'.grayagain → p ∈ s.grayagain ∨ p = o
  grayagain_mono : ∀ {p}, p ∈ s.grayagain → p ∈ s'.grayagain

theorem Marks.traverses (marks : Marks s s') (o : GCRef) : Traverses o s s' where
  background := marks.background
  table _ := by rw [marks.table]
  thread _ := by rw [marks.thread]
  openupval _ := by rw [marks.thread]
  fades := marks.fades
  holds holds := by rwa [marks.holds] at holds
  self := marks.nonWhite
  kept _ := marks.kept
  turned _ := marks.turned
  gray := marks.gray
  weak member := .inl (marks.weak ▸ member)
  weak_mono member := marks.weak ▸ member
  grayagain member := .inl (marks.grayagain ▸ member)
  grayagain_mono member := marks.grayagain ▸ member

namespace Traverses

theorem refers (traverses : Traverses o s s') (after : s'.Refers p r) : s.Refers p r := traverses.fades.refers after

theorem nonWhite (traverses : Traverses o s s') (before : s.NonWhite r) : s'.NonWhite r := by
  by_cases self : r = o
  · subst self
    exact traverses.self before
  · exact (nonWhite_congr (traverses.kept self before.not_white)).2 before

theorem isOpen (traverses : Traverses o s s') : s'.IsOpen = s.IsOpen := by
  funext o
  simp only [IsOpen, traverses.background]

theorem mem_gray (traverses : Traverses o s s') (member : p ∈ s.gray) : p ∈ s'.gray := by
  obtain ⟨new, gray, -⟩ := traverses.gray
  rw [gray]
  exact List.mem_append_right _ member

theorem settled (traverses : Traverses o s s') (other : r ≠ o) (before : s.Settled r) : s'.Settled r := by
  have colour := traverses.kept other before.nonWhite.not_white
  unfold Settled
  rw [colour, traverses.isOpen]
  obtain ⟨black, kind, clean⟩ | ⟨gray, waits⟩ := before
  · exact .inl ⟨black, kind, fun r' holds => traverses.nonWhite (clean r' (traverses.holds holds))⟩
  · refine .inr ⟨gray, ?_⟩
    obtain member | isString | ⟨isOpen, clean⟩ := waits
    · exact .inl (member.imp id traverses.mem_gray)
    · exact .inr (.inl isString)
    · exact .inr (.inr ⟨isOpen, fun r' refers => traverses.nonWhite (clean r' (traverses.refers refers))⟩)

theorem white_of_white (traverses : Traverses o s s') (nonWhite : s.NonWhite o) (white : s'.iswhite r = true) :
    s.iswhite r = true := by
  by_contra notWhite
  have other : r ≠ o := by
    rintro rfl
    rw [(traverses.self nonWhite).not_white] at white
    cases white
  rw [iswhite_congr (traverses.kept other (by simpa using notWhite))] at white
  exact notWhite white

theorem trans (first : Traverses o s s₁) (second : Traverses o s₁ s₂) (nonWhite : s.NonWhite o) : Traverses o s s₂ where
  background := second.background.trans first.background
  table other := (second.table other).trans (first.table other)
  thread other := (second.thread other).trans (first.thread other)
  openupval a := (second.openupval a).trans (first.openupval a)
  fades := first.fades.trans second.fades
  holds holds := first.holds (second.holds holds)
  self before := second.self (first.self before)
  kept {r} other notWhite := by
    have same := first.kept other notWhite
    rw [second.kept other ((iswhite_congr same).trans notWhite), same]
  turned {r} other white := by
    obtain same | settled := first.turned other white
    · rw [← same]
      exact second.turned other ((iswhite_congr same).trans white)
    · exact .inr (second.settled other settled)
  gray := by
    obtain ⟨new₁, gray₁, nodup₁, fresh₁⟩ := first.gray
    obtain ⟨new₂, gray₂, nodup₂, fresh₂⟩ := second.gray
    refine ⟨new₂ ++ new₁, by rw [gray₂, gray₁, List.append_assoc], List.Nodup.append nodup₂ nodup₁ ?_, ?_⟩
    · intro p late early
      have white := (fresh₂ p late).2.1
      rw [(fresh₁ p early).2.2.not_white] at white
      cases white
    · intro p member
      cases List.mem_append.1 member with
      | inl late =>
        obtain ⟨traversable, white, nonWhite'⟩ := fresh₂ p late
        exact ⟨traversable, first.white_of_white nonWhite white, nonWhite'⟩
      | inr early =>
        obtain ⟨traversable, white, nonWhite'⟩ := fresh₁ p early
        exact ⟨traversable, white, second.nonWhite nonWhite'⟩
  weak member := by
    obtain before | rfl := second.weak member
    · exact first.weak before
    · exact .inr rfl
  weak_mono member := second.weak_mono (first.weak_mono member)
  grayagain member := by
    obtain before | rfl := second.grayagain member
    · exact first.grayagain before
    · exact .inr rfl
  grayagain_mono member := second.grayagain_mono (first.grayagain_mono member)

end Traverses

/-! ## Updates of one object -/

theorem refers_setTable {a : Nat} {x : TableObject N} (refers : (s.setTable a x).Refers p r) :
    s.Refers p r ∨ p = .table a ∧ x.Refers r := by
  cases p with
  | table b =>
    by_cases same : b = a
    · subst same
      simp only [Refers, setTable, Function.update_self] at refers
      exact .inr ⟨rfl, refers⟩
    · simp only [Refers, setTable, Function.update_of_ne same] at refers
      exact .inl refers
  | string | udata | proto | closure | upval | thread => exact .inl refers

theorem holds_setTable {a : Nat} {x : TableObject N} (holds : (s.setTable a x).Holds p r) :
    s.Holds p r ∨ p = .table a ∧ (x.Refers r ∨ ∃ i < x.h.sizenode, gcvalue (x.h.node i).key = some r) := by
  obtain refers | ⟨b, rfl, i, inside, isRef⟩ := holds
  · obtain before | ⟨isTable, refers⟩ := refers_setTable refers
    · exact .inl (.inl before)
    · exact .inr ⟨isTable, .inl refers⟩
  · by_cases same : b = a
    · subst same
      simp only [setTable, Function.update_self] at inside isRef
      exact .inr ⟨rfl, .inr ⟨i, inside, isRef⟩⟩
    · simp only [setTable, Function.update_of_ne same] at inside isRef
      exact .inl (.inr ⟨b, rfl, i, inside, isRef⟩)

/-- A thread is referred to by its own stack and by the upvalues that are open in it. -/
theorem refers_setThread {a : Nat} {x : ThreadObject N} (refers : (s.setThread a x).Refers p r) :
    s.Refers p r ∨ (p = .thread a ∧ x.Refers r) ∨
      ∃ u level, p = .upval u ∧ s.upval u = .inStack a level ∧ gcvalue (x.stack level) = some r := by
  cases p with
  | thread b =>
    by_cases same : b = a
    · subst same
      simp only [Refers, setThread, Function.update_self] at refers
      exact .inr (.inl ⟨rfl, refers⟩)
    · simp only [Refers, setThread, Function.update_of_ne same] at refers
      exact .inl refers
  | upval u =>
    simp only [Refers, upvalValue] at refers ⊢
    have same : (s.setThread a x).upval u = s.upval u := rfl
    rw [same] at refers
    cases kind : s.upval u with
    | closed v =>
      rw [kind] at refers
      exact .inl refers
    | inStack b level =>
      rw [kind] at refers
      by_cases here : b = a
      · subst here
        simp only [setThread, Function.update_self] at refers
        exact .inr (.inr ⟨u, level, rfl, kind, refers⟩)
      · simp only [setThread, Function.update_of_ne here] at refers
        exact .inl refers
  | string | udata | proto | closure | table => exact .inl refers

theorem holds_iff_refers (notTable : ∀ a, o ≠ .table a) : s.Holds o r ↔ s.Refers o r :=
  ⟨fun holds => holds.elim id fun ⟨a, isTable, _⟩ => absurd isTable (notTable a), .inl⟩

theorem Grounded.congr (grounded : s.Grounded) (refers : ∀ {p r}, s'.Refers p r → s.Refers p r)
    (allocated : ∀ r, s'.colour r ≠ none ↔ s.colour r ≠ none) : s'.Grounded where
  allocated {p r} present refers' := (allocated r).2 (grounded.allocated ((allocated p).1 present) (refers refers'))

/-! ## Closures and prototypes -/

theorem traverseclosure_marks (grounded : s.Grounded) (a : Nat) :
    MarksObjects s (s.closure a).refs (s.traverseclosure a) := by
  unfold traverseclosure
  cases kind : s.closure a with
  | c env upvalue =>
    have first := marktable_marks s env
    have rest := markvalues_marks upvalue (first.grounded grounded)
    refine ⟨first.toMarks.trans rest.toMarks, fun o member allocated => ?_⟩
    simp only [Closure.refs, List.mem_cons, List.mem_filterMap] at member
    obtain rfl | ⟨v, here, isRef⟩ := member
    · exact rest.nonWhite (first.marked allocated)
    · exact rest.marked v here o isRef (first.allocated.2 allocated)
  | gafq env p upvals =>
    have first := marktable_marks s env
    have rest := markobjects_marks (.proto p :: upvals.map .upval) (first.grounded grounded)
    refine ⟨first.toMarks.trans rest.toMarks, fun o member allocated => ?_⟩
    obtain rfl | others := List.mem_cons.1 member
    · exact rest.nonWhite (first.marked allocated)
    · exact rest.marked o others (first.allocated.2 allocated)

theorem traverseproto_marks (grounded : s.Grounded) (a : Nat) :
    MarksObjects s (s.proto a).refs (s.traverseproto a) := by
  have marks₁ := stringmarks_marks [(s.proto a).source] s
  have marks₂ := markvalues_marks (s.proto a).k (marks₁.grounded grounded)
  have toSecond := marks₁.toMarks.trans marks₂.toMarks
  have marks₃ := stringmarks_marks (s.proto a).upvalues ((s.stringmarks [(s.proto a).source]).markvalues (s.proto a).k)
  have toThird := toSecond.trans marks₃.toMarks
  have marks₄ := markobjects_marks (((s.proto a).p.filterMap id).map .proto) (toThird.grounded grounded)
  have toFourth := toThird.trans marks₄.toMarks
  have marks₅ := stringmarks_marks (s.proto a).locvars
    ((((s.stringmarks [(s.proto a).source]).markvalues (s.proto a).k).stringmarks (s.proto a).upvalues).markobjects
      (((s.proto a).p.filterMap id).map .proto))
  refine ⟨toFourth.trans marks₅.toMarks, fun o member allocated => ?_⟩
  simp only [ProtoObject.refs, List.mem_append] at member
  obtain isSource | isConstant | isUpvalue | isNested | isLocvar := member
  · refine marks₅.nonWhite (marks₄.nonWhite (marks₃.nonWhite (marks₂.nonWhite (marks₁.marked o ?_ allocated))))
    cases isNull : (s.proto a).source <;> simp_all
  · obtain ⟨v, here, isRef⟩ := List.mem_filterMap.1 isConstant
    exact marks₅.nonWhite (marks₄.nonWhite (marks₃.nonWhite
      (marks₂.marked v here o isRef (marks₁.allocated.2 allocated))))
  · exact marks₅.nonWhite (marks₄.nonWhite (marks₃.marked o isUpvalue (toSecond.allocated.2 allocated)))
  · exact marks₅.nonWhite (marks₄.marked o isNested (toThird.allocated.2 allocated))
  · exact marks₅.marked o isLocvar (toFourth.allocated.2 allocated)

/-! ## Threads -/

theorem foldl_max_le (cis : List CallInfo) : ∀ {low high : Nat}, low ≤ high →
    (cis.filter fun ci => !ci.isC).foldl (fun lim ci => max lim ci.top) low ≤
      cis.foldl (fun lim ci => max lim ci.top) high := by
  induction cis with
  | nil => exact fun le => le
  | cons ci cis inductionHypothesis =>
    intro low high le
    cases isC : ci.isC with
    | true =>
      simp only [List.filter_cons, isC, Bool.not_true, Bool.false_eq_true, if_false, List.foldl_cons]
      exact inductionHypothesis (by omega)
    | false =>
      simp only [List.filter_cons, isC, Bool.not_false, if_true, List.foldl_cons]
      exact inductionHypothesis (by omega)

theorem exposed_le_lim (th : ThreadObject N) : th.exposed ≤ th.lim := foldl_max_le th.ci (le_refl _)

/-- All slots of a stack that are in use have been marked, and the others cleared. -/
theorem traversestack_traverses (grounded : s.Grounded) {a : Nat} (present : s.colour (.thread a) ≠ none) :
    Traverses (.thread a) s (s.traversestack a) ∧
      (∀ r, (s.traversestack a).Refers (.thread a) r → (s.traversestack a).NonWhite r) ∧
      ∀ p, (s.traversestack a).colour p = s.colour p ∨ s.iswhite p = true := by
  have marks₁ := markvalue_marks grounded (s.thread a).gt
  have marks₂ := markvalues_marks ((List.range (s.thread a).top).map (s.thread a).stack) (marks₁.grounded grounded)
  have marks := marks₁.toMarks.trans marks₂.toMarks
  generalize reached : (s.markvalue (s.thread a).gt).markvalues ((List.range (s.thread a).top).map (s.thread a).stack)
    = s₂ at marks₂ marks
  generalize cleared : ({ s.thread a with
    stack := fun i => if (s.thread a).top ≤ i ∧ i ≤ (s.thread a).lim then .nil else (s.thread a).stack i } :
      ThreadObject N) = x
  have result : s.traversestack a = s₂.setThread a x := by
    rw [← reached, ← cleared]
    rfl
  have stack : ∀ {i r}, gcvalue (x.stack i) = some r → gcvalue ((s.thread a).stack i) = some r := by
    intro i r isRef
    rw [← cleared] at isRef
    simp only at isRef
    split at isRef
    · cases isRef
    · exact isRef
  have thread : ∀ {r}, x.Refers r → (s.thread a).Refers r := by
    intro r refers
    obtain isGlobals | ⟨i, inside, isRef⟩ := refers
    · rw [← cleared] at isGlobals
      exact .inl isGlobals
    · have inside' : i < (s.thread a).exposed := by
        rw [← cleared] at inside
        exact inside
      exact .inr ⟨i, inside', stack isRef⟩
  have refers : ∀ {p r}, (s₂.setThread a x).Refers p r → s.Refers p r := by
    intro p r refers
    obtain before | ⟨rfl, inside⟩ | ⟨u, level, rfl, isOpen, isRef⟩ := refers_setThread refers
    · rwa [marks.refers] at before
    · exact thread inside
    · rw [marks.background] at isOpen
      simp only [Refers, upvalValue, isOpen]
      exact stack isRef
  have allocated : ∀ {r}, s.Refers (.thread a) r → s.colour r ≠ none := fun refers => grounded.allocated present refers
  rw [result]
  have fades : Fades s (s₂.setThread a x) := by
    refine ⟨refers, by rw [← marks.fades.string]; rfl, by rw [← marks.fades.tmMode]; rfl, fun b => marks.fades.table b,
      fun b => ?_⟩
    by_cases same : b = a
    · subst same
      simp only [setThread, Function.update_self]
      rw [← cleared]
      refine ⟨rfl, rfl, fun i => ?_⟩
      by_cases unused : (s.thread b).top ≤ i ∧ i ≤ (s.thread b).lim
      · exact .inr (if_pos unused)
      · exact .inl (if_neg unused)
    · simp only [setThread, Function.update_of_ne same]
      exact marks.fades.thread b
  refine ⟨⟨marks.background, fun _ => by rw [← marks.table]; rfl, fun {b} other => ?_, fun b => ?_, fades, ?_,
    marks.nonWhite, fun _ => marks.kept, fun {r} _ white => ?_, marks.gray, fun member => .inl (marks.weak ▸ member),
    fun member => marks.weak ▸ member, fun member => .inl (marks.grayagain ▸ member),
    fun member => marks.grayagain ▸ member⟩, fun r refers' => ?_, fun p => ?_⟩
  · have different : b ≠ a := fun same => other (by rw [same])
    simp only [setThread, Function.update_of_ne different, marks.thread]
  · by_cases same : b = a
    · subst same
      simp only [setThread, Function.update_self]
      rw [← cleared]
    · simp only [setThread, Function.update_of_ne same, marks.thread]
  · intro p r holds
    obtain before | ⟨b, rfl, i, inside, isRef⟩ := holds
    · exact .inl (refers before)
    · have table : (s₂.setThread a x).table = s.table := marks.table
      rw [table] at inside isRef
      exact .inr ⟨b, rfl, i, inside, isRef⟩
  · obtain same | settled := marks.turned white
    · exact .inl same
    · refine .inr ?_
      obtain ⟨black, kind, clean⟩ | ⟨gray, waits⟩ := settled
      · refine .inl ⟨black, kind, fun r' holds => clean r' ?_⟩
        rw [marks.holds]
        have notTable : ∀ b, r ≠ .table b := by
          rintro b rfl
          exact kind.1 trivial
        exact .inl (refers ((holds_iff_refers notTable).1 holds))
      · refine .inr ⟨gray, ?_⟩
        obtain member | isString | ⟨isOpen, clean⟩ := waits
        · exact .inl member
        · exact .inr (.inl isString)
        · refine .inr (.inr ⟨isOpen, fun r' refers' => clean r' ?_⟩)
          rw [marks.refers]
          exact refers refers'
  · have isThread : x.Refers r := by
      simpa only [Refers, setThread, Function.update_self] using refers'
    have allocated' := allocated (thread isThread)
    obtain isGlobals | ⟨i, inside, isRef⟩ := isThread
    · rw [← cleared] at isGlobals
      exact marks₂.nonWhite (marks₁.marked _ List.mem_cons_self r isGlobals allocated')
    · by_cases inUse : i < (s.thread a).top
      · refine marks₂.marked _ (List.mem_map_of_mem (List.mem_range.2 inUse)) r (stack isRef) ?_
        exact marks₁.allocated.2 allocated'
      · -- the slots between the top and the limit of the frames are empty now
        have limit : i ≤ (s.thread a).lim := by
          have exposed : i < (s.thread a).exposed := by
            rw [← cleared] at inside
            exact inside
          have := exposed_le_lim (s.thread a)
          omega
        rw [← cleared] at isRef
        simp only [show (s.thread a).top ≤ i ∧ i ≤ (s.thread a).lim from ⟨by omega, limit⟩, and_self, if_true] at isRef
        cases isRef
  · by_cases white : s.iswhite p = true
    · exact .inr white
    · exact .inl (marks.kept (by simpa using white))

/-! ## Tables -/

theorem gcvalue_deadkey (key : TValue N) : gcvalue (deadkey key) = none := by
  cases key <;> rfl

theorem mem_arrayValues {h : Gafq.Table N} {v : TValue N} : v ∈ arrayValues h ↔ ∃ i < h.sizearray, h.array i = v := by
  simp [arrayValues]

theorem mem_liveNodes {h : Gafq.Table N} {n : Node N} :
    n ∈ liveNodes h ↔ ∃ i < h.sizenode, h.node i = n ∧ n.val ≠ .nil := by
  simp only [liveNodes, List.mem_filter, List.mem_map, List.mem_reverse, List.mem_range, Bool.not_eq_true',
    TValue.isNil_eq_false]
  constructor
  · rintro ⟨⟨i, inside, same⟩, used⟩
    exact ⟨i, inside, same, used⟩
  · rintro ⟨i, inside, same, used⟩
    exact ⟨⟨i, inside, same⟩, used⟩

/-- Removing the keys of empty entries leaves all other references. -/
theorem removeentries_refers {x : TableObject N} {h : Gafq.Table N} (same : x.h = removeentries h) :
    x.Refers r ↔ ({ x with h } : TableObject N).Refers r := by
  unfold TableObject.Refers
  rw [same]
  refine or_congr Iff.rfl (or_congr Iff.rfl (exists_congr fun i => and_congr Iff.rfl ?_))
  simp only [removeentries]
  split
  · next isNil => simp [TValue.isNil_iff.1 isNil]
  · rfl

theorem removeentries_key {h : Gafq.Table N} {i : Nat} (isRef : gcvalue ((removeentries h).node i).key = some r) :
    (h.node i).val ≠ .nil ∧ gcvalue (h.node i).key = some r := by
  simp only [removeentries] at isRef
  split at isRef
  · simp [gcvalue_deadkey] at isRef
  · next used => exact ⟨by simpa using used, isRef⟩

theorem removeentries_node {h : Gafq.Table N} {i : Nat} (used : ((removeentries h).node i).val ≠ .nil) :
    (removeentries h).node i = h.node i := by
  simp only [removeentries] at used ⊢
  split
  · next isNil => simp [TValue.isNil_iff.1 isNil] at used
  · rfl

theorem removeentries_dwindles (x : TableObject N) : x.Dwindles { x with h := removeentries x.h } where
  metatable := rfl
  sizearray := rfl
  sizenode := rfl
  isDummy := rfl
  array _ := .inl rfl
  node i := by
    simp only [removeentries]
    split
    · next isNil => exact .inr ⟨TValue.isNil_iff.1 isNil, gcvalue_deadkey _⟩
    · exact .inl rfl
  names i k m _ val := by simp [removeentries, val, TValue.isNil]

theorem setTable_fades {a : Nat} {x : TableObject N} (dwindles : (s.table a).Dwindles x) : Fades s (s.setTable a x) where
  refers {p r} after := by
    obtain before | ⟨rfl, inside⟩ := refers_setTable after
    · exact before
    · exact dwindles.refers inside
  string := rfl
  tmMode := rfl
  table b := by
    by_cases same : b = a
    · subst same
      simpa only [setTable, Function.update_self] using dwindles
    · simpa only [setTable, Function.update_of_ne same] using .refl _
  thread _ := .refl _

theorem setTable_traverses {a : Nat} {x : TableObject N} (dwindles : (s.table a).Dwindles x)
    (keys : ∀ {i r}, i < x.h.sizenode → gcvalue (x.h.node i).key = some r → s.Holds (.table a) r) :
    Traverses (.table a) s (s.setTable a x) where
  background := rfl
  table {b} other := by
    have different : b ≠ a := fun same => other (by rw [same])
    simp only [setTable, Function.update_of_ne different]
  thread _ := rfl
  openupval _ := rfl
  fades := setTable_fades dwindles
  holds {p r} after := by
    obtain before | ⟨rfl, inside | ⟨i, inside, isRef⟩⟩ := holds_setTable after
    · exact before
    · exact .inl (dwindles.refers inside)
    · exact keys inside isRef
  self := id
  kept _ _ := rfl
  turned _ _ := .inl rfl
  gray := ⟨[], rfl, List.nodup_nil, by simp⟩
  weak := .inl
  weak_mono := id
  grayagain := .inl
  grayagain_mono := id

theorem linkweak_traverses (s : State N) (o : GCRef) : Traverses o s { s with weak := o :: s.weak } where
  background := rfl
  table _ := rfl
  thread _ := rfl
  openupval _ := rfl
  fades := .of_eq (refers_congr rfl rfl rfl) rfl rfl rfl rfl
  holds {p _} after := by cases p <;> exact after
  self := id
  kept _ _ := rfl
  turned _ _ := .inl rfl
  gray := ⟨[], rfl, List.nodup_nil, by simp⟩
  weak member := (List.mem_cons.1 member).symm
  weak_mono := List.mem_cons_of_mem _
  grayagain := .inl
  grayagain_mono := id

/-- A weak table waits to be cleared; its strong parts have been marked. -/
structure WeakDone (s : State N) (a : Nat) : Prop where
  listed : .table a ∈ s.weak
  metatable : ∀ m, (s.table a).metatable = some m → s.NonWhite (.table m)
  array : (s.table a).weakvalue = false →
    ∀ i < (s.table a).h.sizearray, ∀ r, gcvalue ((s.table a).h.array i) = some r → s.NonWhite r
  node : ∀ i < (s.table a).h.sizenode, ((s.table a).h.node i).val ≠ .nil → ∀ r,
    (s.table a).weakkey = false ∧ gcvalue ((s.table a).h.node i).key = some r ∨
    (s.table a).weakvalue = false ∧ gcvalue ((s.table a).h.node i).val = some r → s.NonWhite r
  mode : ((s.mode a).1 = false → (s.table a).weakkey = false) ∧ ((s.mode a).2 = false → (s.table a).weakvalue = false)

/-- The loops of `traversetable`, after the weak mode is known. -/
def traverseentries (s : State N) (a : Nat) (weakkey weakvalue : Bool) : State N :=
  let h := (s.table a).h
  let s := if weakvalue then s else s.markvalues (arrayValues h)
  let s := s.markvalues ((liveNodes h).flatMap fun n =>
    (if weakkey then [] else [n.key]) ++ if weakvalue then [] else [n.val])
  s.setTable a { s.table a with h := removeentries h }

theorem traverseentries_traverses (grounded : s.Grounded) {a : Nat} (nonWhite : s.NonWhite (.table a))
    (weakkey weakvalue : Bool) :
    Traverses (.table a) s (s.traverseentries a weakkey weakvalue) ∧
      (weakvalue = false → ∀ v ∈ arrayValues (s.table a).h, ∀ r, gcvalue v = some r →
        (s.traverseentries a weakkey weakvalue).NonWhite r) ∧
      (∀ n ∈ liveNodes (s.table a).h, ∀ r, (weakkey = false ∧ gcvalue n.key = some r) ∨
        (weakvalue = false ∧ gcvalue n.val = some r) → (s.traverseentries a weakkey weakvalue).NonWhite r) ∧
      (s.traverseentries a weakkey weakvalue).table a = { s.table a with h := removeentries (s.table a).h } ∧
      (s.traverseentries a weakkey weakvalue).colour (.table a) = s.colour (.table a) := by
  have arrays : Marks s (if weakvalue then s else s.markvalues (arrayValues (s.table a).h)) ∧
      (weakvalue = false → ∀ v ∈ arrayValues (s.table a).h, ∀ r, gcvalue v = some r → s.colour r ≠ none →
        (if weakvalue then s else s.markvalues (arrayValues (s.table a).h)).NonWhite r) := by
    cases weakvalue with
    | true => exact ⟨Marks.refl s, fun h => by cases h⟩
    | false =>
      have marks := markvalues_marks (arrayValues (s.table a).h) grounded
      exact ⟨marks.toMarks, fun _ => marks.marked⟩
  obtain ⟨marks₁, marked₁⟩ := arrays
  generalize first : (if weakvalue then s else s.markvalues (arrayValues (s.table a).h)) = s₁ at marks₁ marked₁
  have marks₂ := markvalues_marks ((liveNodes (s.table a).h).flatMap fun n =>
    (if weakkey then [] else [n.key]) ++ if weakvalue then [] else [n.val]) (marks₁.grounded grounded)
  generalize second : s₁.markvalues ((liveNodes (s.table a).h).flatMap fun n =>
    (if weakkey then [] else [n.key]) ++ if weakvalue then [] else [n.val]) = s₂ at marks₂
  have marks := marks₁.trans marks₂.toMarks
  have result : s.traverseentries a weakkey weakvalue =
      s₂.setTable a { s.table a with h := removeentries (s.table a).h } := by
    rw [← second, ← first] at *
    rw [traverseentries]
    simp only [marks.table]
  have refs : ∀ {r}, (s.table a).Refers r → s.colour r ≠ none := fun refers => grounded.allocated nonWhite.allocated refers
  rw [result]
  refine ⟨?_, fun strong v member r isRef => ?_, fun n member r isRef => ?_, ?_, marks.kept nonWhite.not_white⟩
  · refine (marks.traverses _).trans (setTable_traverses ?_ fun {i r} inside isRef => ?_) nonWhite
    · rw [marks.table]
      exact removeentries_dwindles _
    · obtain ⟨used, isRef⟩ := removeentries_key isRef
      refine .inl ?_
      simp only [Refers, marks.table]
      exact .inr (.inr ⟨i, inside, used, .inl isRef⟩)
  · refine marks₂.nonWhite (marked₁ strong v member r isRef (refs ?_))
    obtain ⟨i, inside, rfl⟩ := mem_arrayValues.1 member
    exact .inr (.inl ⟨i, inside, isRef⟩)
  · obtain ⟨i, inside, rfl, used⟩ := mem_liveNodes.1 member
    have allocated : s₁.colour r ≠ none := by
      refine marks₁.allocated.2 (refs (.inr (.inr ⟨i, inside, used, ?_⟩)))
      exact isRef.imp And.right And.right
    obtain ⟨strong, isKey⟩ | ⟨strong, isValue⟩ := isRef
    · refine marks₂.marked _ (List.mem_flatMap.2 ⟨_, member, ?_⟩) r isKey allocated
      simp [strong]
    · refine marks₂.marked _ (List.mem_flatMap.2 ⟨_, member, ?_⟩) r isValue allocated
      simp [strong]
  · simp only [setTable, Function.update_self]

/-- A table with a weak mode goes to the list `weak`. -/
def linkweak (s : State N) (a : Nat) (weakkey weakvalue : Bool) : State N :=
  let s := s.setTable a { s.table a with weakkey, weakvalue }
  { s with weak := .table a :: s.weak }

theorem traversetable_eq (s : State N) (a : Nat) :
    ∃ weakkey weakvalue, (s.markmetatable (s.table a).metatable).mode a = (weakkey, weakvalue) ∧ s.traversetable a =
      (if weakkey && weakvalue then ((s.markmetatable (s.table a).metatable).linkweak a weakkey weakvalue, true)
       else if weakkey || weakvalue then
         (((s.markmetatable (s.table a).metatable).linkweak a weakkey weakvalue).traverseentries a weakkey weakvalue, true)
       else ((s.markmetatable (s.table a).metatable).traverseentries a weakkey weakvalue, false)) := by
  refine ⟨((s.markmetatable (s.table a).metatable).mode a).1, ((s.markmetatable (s.table a).metatable).mode a).2, rfl, ?_⟩
  unfold traversetable
  cases mode : (s.markmetatable (s.table a).metatable).mode a with
  | mk weakkey weakvalue => cases weakkey <;> cases weakvalue <;> simp [linkweak, traverseentries, mode]

theorem linkweak_traverses_table (s : State N) (a : Nat) (weakkey weakvalue : Bool) (nonWhite : s.NonWhite (.table a)) :
    Traverses (.table a) s (s.linkweak a weakkey weakvalue) := by
  have first : Traverses (.table a) s (s.setTable a { s.table a with weakkey, weakvalue }) :=
    setTable_traverses ⟨rfl, rfl, rfl, rfl, fun _ => .inl rfl, fun _ => .inl rfl, fun _ _ _ _ _ => rfl⟩
      fun {i r} inside isRef => .inr ⟨a, rfl, i, inside, isRef⟩
  exact first.trans (linkweak_traverses _ _) nonWhite

theorem Traverses.allocated (traverses : Traverses o s s') (before : s.colour o ≠ none) (after : s'.colour o ≠ none)
    (r : GCRef) : s'.colour r ≠ none ↔ s.colour r ≠ none := by
  by_cases self : r = o
  · subst self
    exact ⟨fun _ => before, fun _ => after⟩
  · by_cases white : s.iswhite r = true
    · have before : s.colour r ≠ none := by
        obtain ⟨bit, colour⟩ := iswhite_iff.1 white
        simp [colour]
      obtain same | settled := traverses.turned self white
      · rw [same]
      · exact ⟨fun _ => before, fun _ => settled.nonWhite.allocated⟩
    · rw [traverses.kept self (by simpa using white)]

theorem Traverses.grounded (traverses : Traverses o s s') (nonWhite : s.NonWhite o) (grounded : s.Grounded) :
    s'.Grounded :=
  grounded.congr traverses.refers (traverses.allocated nonWhite.allocated (traverses.self nonWhite).allocated)

/-- A table that is not weak refers to nothing white after its traversal. -/
theorem traversetable_traverses (grounded : s.Grounded) {a : Nat} (nonWhite : s.NonWhite (.table a)) :
    Traverses (.table a) s (s.traversetable a).1 ∧
      ((s.traversetable a).2 = false → ∀ r, (s.traversetable a).1.Holds (.table a) r → (s.traversetable a).1.NonWhite r) ∧
      ((s.traversetable a).2 = true → (s.traversetable a).1.WeakDone a) ∧
      (s.traversetable a).1.colour (.table a) = s.colour (.table a) := by
  obtain ⟨marks, marked⟩ := markmetatable_marks s (s.table a).metatable
  obtain ⟨weakkey, weakvalue, mode, result⟩ := traversetable_eq s a
  rw [result]
  generalize s.markmetatable (s.table a).metatable = s₁ at marks marked mode
  have nonWhite₁ := marks.nonWhite nonWhite
  have first := marks.traverses (.table a)
  have metatable : ∀ m, (s.table a).metatable = some m → s₁.NonWhite (.table m) := fun m isMetatable =>
    marked m isMetatable (grounded.allocated nonWhite.allocated (show s.Refers (.table a) _ from .inl (by rw [isMetatable]; rfl)))
  have colour₁ : s₁.colour (.table a) = s.colour (.table a) := marks.kept nonWhite.not_white
  have linked := linkweak_traverses_table s₁ a weakkey weakvalue nonWhite₁
  have table₂ : (s₁.linkweak a weakkey weakvalue).table a = { s.table a with weakkey, weakvalue } := by
    simp only [linkweak, setTable, Function.update_self, marks.table]
  have listed : .table a ∈ (s₁.linkweak a weakkey weakvalue).weak := List.mem_cons_self
  -- the mode that the mark bits show may have become weaker
  have bits : ∀ {s' : State N}, Fades s₁ s' →
      ((s'.mode a).1 = false → weakkey = false) ∧ ((s'.mode a).2 = false → weakvalue = false) := by
    intro s' fades
    have weaker := fades.mode a
    rwa [mode] at weaker
  by_cases both : (weakkey && weakvalue) = true
  · -- neither keys nor values are looked at
    rw [if_pos both]
    simp only [Bool.and_eq_true] at both
    refine ⟨first.trans linked nonWhite, nofun, fun _ => ⟨listed, fun m isMetatable => ?_, fun strong => ?_,
      fun i inside used r which => ?_, ?_⟩, colour₁⟩
    · rw [table₂] at isMetatable
      exact linked.nonWhite (metatable m isMetatable)
    · rw [table₂] at strong
      rw [both.2] at strong
      cases strong
    · rw [table₂] at which
      simp [both] at which
    · rw [table₂]
      exact bits linked.fades
  · rw [if_neg both]
    by_cases isWeak : (weakkey || weakvalue) = true
    · rw [if_pos isWeak]
      obtain ⟨traverses, arrays, nodes, table₃, colour₃⟩ := traverseentries_traverses
        (linked.grounded nonWhite₁ (marks.grounded grounded)) (linked.self nonWhite₁) weakkey weakvalue
      rw [table₂] at arrays nodes table₃
      refine ⟨(first.trans linked nonWhite).trans traverses nonWhite, nofun,
        fun _ => ⟨traverses.weak_mono listed, fun m isMetatable => ?_, fun strong i inside r isRef => ?_,
          fun i inside used r which => ?_, ?_⟩, colour₃.trans colour₁⟩
      · rw [table₃] at isMetatable
        exact traverses.nonWhite (linked.nonWhite (metatable m isMetatable))
      · rw [table₃] at strong inside isRef
        exact arrays strong _ (mem_arrayValues.2 ⟨i, inside, rfl⟩) r isRef
      · rw [table₃] at inside used which
        have same := removeentries_node used
        rw [same] at used which
        exact nodes _ (mem_liveNodes.2 ⟨i, inside, rfl, used⟩) r which
      · rw [table₃]
        exact bits (linked.fades.trans traverses.fades)
    · rw [if_neg isWeak]
      obtain ⟨traverses, arrays, nodes, table₃, colour₃⟩ :=
        traverseentries_traverses (marks.grounded grounded) nonWhite₁ weakkey weakvalue
      rw [marks.table] at arrays nodes table₃
      simp only [Bool.or_eq_true, not_or, Bool.not_eq_true] at isWeak
      refine ⟨first.trans traverses nonWhite, fun _ r holds => ?_, nofun, colour₃.trans colour₁⟩
      have live : ∀ {i r}, i < (s.table a).h.sizenode → ((s.table a).h.node i).val ≠ .nil →
          gcvalue ((s.table a).h.node i).key = some r ∨ gcvalue ((s.table a).h.node i).val = some r →
          (s₁.traverseentries a weakkey weakvalue).NonWhite r := fun {i r} inside used isRef =>
        nodes _ (mem_liveNodes.2 ⟨i, inside, rfl, used⟩) r (isRef.imp (⟨isWeak.1, ·⟩) (⟨isWeak.2, ·⟩))
      obtain refers | ⟨b, isTable, i, inside, isKey⟩ := holds
      · simp only [Refers, table₃] at refers
        rw [removeentries_refers rfl] at refers
        obtain isMetatable | ⟨i, inside, isRef⟩ | ⟨i, inside, used, isRef⟩ := refers
        · obtain ⟨m, same, rfl⟩ := Option.map_eq_some_iff.1 isMetatable
          exact traverses.nonWhite (metatable m same)
        · exact arrays isWeak.2 _ (mem_arrayValues.2 ⟨i, inside, rfl⟩) r isRef
        · exact live inside used isRef
      · cases isTable
        rw [table₃] at inside isKey
        obtain ⟨used, isRef⟩ := removeentries_key isKey
        exact live inside used (.inl isRef)

/-! ## `propagatemark` -/

/-- The state after the traversal of a gray object. -/
inductive Traversed (s : State N) : GCRef → Prop
  | black {o : GCRef} : s.colour o = some .black → (∀ r, s.Holds o r → s.NonWhite r) → (∀ a, o ≠ .thread a) → Traversed s o
  | weak {a : Nat} : s.colour (.table a) = some .gray → s.WeakDone a → Traversed s (.table a)
  | thread {a : Nat} : s.colour (.thread a) = some .gray → .thread a ∈ s.grayagain →
      (∀ r, s.Refers (.thread a) r → s.NonWhite r) → Traversed s (.thread a)

theorem paint_traverses (s : State N) (o : GCRef) (f : Colour → Colour)
    (turned : s.NonWhite o → (s.paint o f).NonWhite o) : Traverses o s (s.paint o f) where
  background := rfl
  table _ := rfl
  thread _ := rfl
  openupval _ := rfl
  fades := .of_eq (refers_congr rfl rfl rfl) rfl rfl rfl rfl
  holds {p _} after := by cases p <;> exact after
  self := turned
  kept other _ := colour_paint_of_ne s f other
  turned other _ := .inl (colour_paint_of_ne s f other)
  gray := ⟨[], rfl, List.nodup_nil, by simp⟩
  weak := .inl
  weak_mono := id
  grayagain := .inl
  grayagain_mono := id

theorem black2gray_of_nonWhite (nonWhite : s.NonWhite o) : (s.black2gray o).colour o = some .gray := by
  rw [black2gray, colour_paint_self]
  obtain gray | black := nonWhite
  · rw [gray]
    rfl
  · rw [black]
    rfl

theorem Marks.traversed_black (marks : Marks s s') (black : s.colour o = some .black) (notThread : ∀ a, o ≠ .thread a)
    (clean : ∀ r, s.Holds o r → s'.NonWhite r) : s'.Traversed o := by
  refine .black ?_ (fun r holds => clean r (marks.holds ▸ holds)) notThread
  rw [marks.kept (NonWhite.not_white (.inr black)), black]

theorem propagatemark_spec (grounded : s.Grounded) {rest : List GCRef} (isGray : s.gray = o :: rest)
    (traversable : o.Traversable) (nonWhite : s.NonWhite o) :
    Traverses o { s with gray := rest } s.propagatemark ∧ s.propagatemark.Traversed o := by
  generalize start : ({ s with gray := rest } : State N) = s₀
  have nonWhite₀ : s₀.NonWhite o := by
    rw [← start]
    exact nonWhite
  have grounded₀ : s₀.Grounded := by
    rw [← start]
    refine grounded.congr (fun {p r} refers => ?_) fun r => Iff.rfl
    cases p <;> exact refers
  have black₁ : (s₀.gray2black o).colour o = some .black := by
    rw [gray2black, colour_paint_self]
    obtain gray | black := nonWhite₀ <;> simp [*]
  have first : Traverses o s₀ (s₀.gray2black o) := paint_traverses s₀ o _ fun _ => .inr black₁
  have grounded₁ := first.grounded nonWhite₀ grounded₀
  have nonWhite₁ := first.self nonWhite₀
  generalize popped : s₀.gray2black o = s₁ at black₁ first grounded₁ nonWhite₁
  have popped' : ({ s.gray2black o with gray := rest } : State N) = s₁ := by
    rw [← popped, ← start]
    rfl
  unfold propagatemark
  rw [isGray]
  simp only [popped']
  cases o with
  | string | udata | upval => exact absurd traversable id
  | closure a =>
    have marks := traverseclosure_marks grounded₁ a
    refine ⟨first.trans (marks.traverses _) nonWhite₀, marks.traversed_black black₁ (by rintro _ ⟨⟩) fun r holds => ?_⟩
    have refers : s₁.Refers (.closure a) r := (holds_iff_refers fun _ => by simp).1 holds
    exact marks.marked r refers (grounded₁.allocated nonWhite₁.allocated refers)
  | proto a =>
    have marks := traverseproto_marks grounded₁ a
    refine ⟨first.trans (marks.traverses _) nonWhite₀, marks.traversed_black black₁ (by rintro _ ⟨⟩) fun r holds => ?_⟩
    have refers : s₁.Refers (.proto a) r := (holds_iff_refers fun _ => by simp).1 holds
    exact marks.marked r refers (grounded₁.allocated nonWhite₁.allocated refers)
  | table a =>
    obtain ⟨traverses, clean, weakDone, colour⟩ := traversetable_traverses grounded₁ nonWhite₁
    simp only
    by_cases weak : (s₁.traversetable a).2 = true
    · rw [if_pos weak]
      generalize (s₁.traversetable a).1 = s₂ at traverses weakDone
      have gray : (s₂.black2gray (.table a)).colour (.table a) = some .gray :=
        black2gray_of_nonWhite (traverses.self nonWhite₁)
      have last : Traverses (.table a) s₂ (s₂.black2gray (.table a)) := paint_traverses s₂ _ _ fun _ => .inl gray
      obtain ⟨listed, metatable, array, node, mode⟩ := weakDone weak
      exact ⟨(first.trans traverses nonWhite₀).trans last nonWhite₀, .weak gray ⟨listed,
        fun m isMetatable => last.nonWhite (metatable m isMetatable),
        fun strong i inside r isRef => last.nonWhite (array strong i inside r isRef),
        fun i inside used r which => last.nonWhite (node i inside used r which), mode⟩⟩
    · rw [if_neg weak]
      exact ⟨first.trans traverses nonWhite₀, .black (colour.trans black₁) (clean (by simpa using weak)) (by rintro _ ⟨⟩)⟩
  | thread a =>
    simp only
    generalize linked : ({ s₁ with grayagain := .thread a :: s₁.grayagain } : State N).black2gray (.thread a) = s₂
    have target : ({ s.gray2black (.thread a) with
        gray := rest, grayagain := .thread a :: (s.gray2black (.thread a)).grayagain } : State N).black2gray (.thread a)
        = s₂ := by
      rw [← linked, ← popped']
    rw [target]
    have gray : s₂.colour (.thread a) = some .gray := by
      rw [← linked]
      exact black2gray_of_nonWhite nonWhite₁
    have second : Traverses (.thread a) s₁ s₂ := by
      rw [← linked]
      refine ⟨rfl, fun _ => rfl, fun _ => rfl, fun _ => rfl, .of_eq (refers_congr rfl rfl rfl) rfl rfl rfl rfl,
        fun {p _} after => ?_, fun _ => ?_, fun other _ => ?_, fun other _ => .inl ?_, ⟨[], rfl, List.nodup_nil, by simp⟩, .inl, id,
        fun member => (List.mem_cons.1 member).symm, List.mem_cons_of_mem _⟩
      · cases p <;> exact after
      · rw [linked]
        exact .inl gray
      · rw [black2gray, colour_paint_of_ne _ _ other]
        rfl
      · rw [black2gray, colour_paint_of_ne _ _ other]
        rfl
    have nonWhite₂ := second.self nonWhite₁
    obtain ⟨third, clean, same⟩ :=
      traversestack_traverses (second.grounded nonWhite₁ grounded₁) nonWhite₂.allocated
    refine ⟨(first.trans second nonWhite₀).trans third nonWhite₀, .thread ?_ (third.grayagain_mono ?_) clean⟩
    · obtain unchanged | white := same (.thread a)
      · rw [unchanged, gray]
      · rw [nonWhite₂.not_white] at white
        cases white
    · rw [← linked]
      exact List.mem_cons_self

end Gafq.GC.State
