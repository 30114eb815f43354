import Gafq.Reachability

/-! # What marking does

Every marking function turns white objects gray or black and does nothing else.  An object that it
turns black refers to nothing white afterwards; one that it turns gray is on the gray list, or has
nothing to be traversed.
-/

namespace Gafq.GC

variable {N : Type}

/-! ## Colours -/

namespace GCRef

/-- The objects that `propagatemark` can traverse. -/
def Traversable : GCRef → Prop
  | .table _ | .closure _ | .thread _ | .proto _ => True
  | .string _ | .udata _ | .upval _ => False

def IsString : GCRef → Prop
  | .string _ => True
  | _ => False

end GCRef

namespace State

variable {s s' s₁ s₂ s₃ : State N} {o r : GCRef}

def NonWhite (s : State N) (r : GCRef) : Prop := s.colour r = some .gray ∨ s.colour r = some .black

/-- The object is allocated, and the next sweep will not free it. -/
def Live (s : State N) (r : GCRef) : Prop := ∃ c, s.colour r = some c ∧ c ≠ .white !s.currentwhite

theorem iswhite_iff : s.iswhite r = true ↔ ∃ bit, s.colour r = some (.white bit) := by
  unfold iswhite
  split <;> simp_all

theorem isblack_iff : s.isblack r = true ↔ s.colour r = some .black := by simp [isblack]

theorem isgray_iff : s.isgray r = true ↔ s.colour r = some .gray := by simp [isgray]

theorem isdead_iff : s.isdead r = true ↔ s.colour r = some (.white !s.currentwhite) := by simp [isdead]

theorem NonWhite.not_white (nonWhite : s.NonWhite r) : s.iswhite r = false := by
  obtain gray | black := nonWhite <;> simp [iswhite, *]

theorem NonWhite.allocated (nonWhite : s.NonWhite r) : s.colour r ≠ none := by
  obtain gray | black := nonWhite <;> simp [*]

theorem NonWhite.ne_white (nonWhite : s.NonWhite r) (bit : Bool) : s.colour r ≠ some (.white bit) := by
  obtain gray | black := nonWhite <;> simp [*]

theorem nonWhite_of_not_white (allocated : s.colour r ≠ none) (notWhite : s.iswhite r = false) : s.NonWhite r := by
  unfold iswhite at notWhite
  unfold NonWhite
  cases colour : s.colour r with
  | none => exact absurd colour allocated
  | some c => cases c <;> simp_all

theorem nonWhite_congr (same : s'.colour r = s.colour r) : s'.NonWhite r ↔ s.NonWhite r := by
  unfold NonWhite
  rw [same]

theorem colour_paint (s : State N) (o r : GCRef) (f : Colour → Colour) :
    (s.paint o f).colour r = if r = o then (s.colour o).map f else s.colour r := by
  unfold colour paint
  by_cases same : r = o
  · subst same
    simp only [Function.update_self, if_true]
  · simp [same]

theorem colour_paint_self (s : State N) (o : GCRef) (f : Colour → Colour) : (s.paint o f).colour o = (s.colour o).map f := by
  rw [colour_paint, if_pos rfl]

theorem colour_paint_of_ne (s : State N) (f : Colour → Colour) (other : r ≠ o) :
    (s.paint o f).colour r = s.colour r := by
  rw [colour_paint, if_neg other]

/-! ## References -/

/-- All references of an object, those of empty entries of a table included. -/
def Holds (s : State N) (o r : GCRef) : Prop :=
  s.Refers o r ∨ ∃ a, o = .table a ∧ ∃ i < (s.table a).h.sizenode, gcvalue ((s.table a).h.node i).key = some r

theorem Refers.holds (refers : s.Refers o r) : s.Holds o r := .inl refers

/-- What an object refers to depends on the contents of the heap only. -/
theorem refers_congr (background : s'.toBackground = s.toBackground) (table : s'.table = s.table)
    (thread : s'.thread = s.thread) : s'.Refers = s.Refers := by
  funext o r
  cases o <;> simp only [Refers, upvalValue, background, table, thread]

theorem holds_congr (background : s'.toBackground = s.toBackground) (table : s'.table = s.table)
    (thread : s'.thread = s.thread) : s'.Holds = s.Holds := by
  funext o r
  simp only [Holds, refers_congr background table thread, table]

/-- No allocated object refers to a freed one. -/
structure Grounded (s : State N) : Prop where
  allocated : ∀ {o r}, s.colour o ≠ none → s.Refers o r → s.colour r ≠ none

/-- The upvalue is open. -/
def IsOpen (s : State N) (o : GCRef) : Prop := ∃ u th level, o = .upval u ∧ s.upval u = .inStack th level

/-- An object that has been marked and needs no more attention, or that waits on the gray list. -/
def Settled (s : State N) (r : GCRef) : Prop :=
  (s.colour r = some .black ∧ (¬ r.Traversable ∧ ¬ r.IsString ∧ ¬ s.IsOpen r) ∧ ∀ r', s.Holds r r' → s.NonWhite r') ∨
  s.colour r = some .gray ∧
    (r.Traversable ∧ r ∈ s.gray ∨ r.IsString ∨ s.IsOpen r ∧ ∀ r', s.Refers r r' → s.NonWhite r')

theorem Settled.nonWhite (settled : s.Settled r) : s.NonWhite r := by
  obtain ⟨black, -⟩ | ⟨gray, -⟩ := settled
  · exact .inr black
  · exact .inl gray

/-! ## The effect of marking -/

structure Marks (s s' : State N) : Prop where
  background : s'.toBackground = s.toBackground
  table : s'.table = s.table
  thread : s'.thread = s.thread
  grayagain : s'.grayagain = s.grayagain
  weak : s'.weak = s.weak
  kept : ∀ {r}, s.iswhite r = false → s'.colour r = s.colour r
  turned : ∀ {r}, s.iswhite r = true → s'.colour r = s.colour r ∨ s'.Settled r
  gray : ∃ new, s'.gray = new ++ s.gray ∧ new.Nodup ∧ ∀ o ∈ new, o.Traversable ∧ s.iswhite o = true ∧ s'.NonWhite o

namespace Marks

theorem refl (s : State N) : Marks s s :=
  ⟨rfl, rfl, rfl, rfl, rfl, fun _ => rfl, fun _ => .inl rfl, [], rfl, List.nodup_nil, by simp⟩

theorem holds (marks : Marks s s') : s'.Holds = s.Holds := holds_congr marks.background marks.table marks.thread

theorem refers (marks : Marks s s') : s'.Refers = s.Refers := refers_congr marks.background marks.table marks.thread

theorem isOpen (marks : Marks s s') : s'.IsOpen = s.IsOpen := by
  funext o
  simp only [IsOpen, marks.background]

theorem nonWhite (marks : Marks s s') (before : s.NonWhite r) : s'.NonWhite r :=
  (nonWhite_congr (marks.kept before.not_white)).2 before

theorem allocated (marks : Marks s s') : s'.colour r ≠ none ↔ s.colour r ≠ none := by
  by_cases white : s.iswhite r = true
  · have before : s.colour r ≠ none := by
      obtain ⟨bit, colour⟩ := iswhite_iff.1 white
      simp [colour]
    obtain same | settled := marks.turned white
    · rw [same]
    · exact ⟨fun _ => before, fun _ => settled.nonWhite.allocated⟩
  · rw [marks.kept (by simpa using white)]

theorem grounded (marks : Marks s s') (grounded : s.Grounded) : s'.Grounded where
  allocated {o r} allocated refers := by
    rw [marks.refers] at refers
    exact marks.allocated.2 (grounded.allocated (marks.allocated.1 allocated) refers)

theorem mem_gray (marks : Marks s s') (member : o ∈ s.gray) : o ∈ s'.gray := by
  obtain ⟨new, gray, -⟩ := marks.gray
  rw [gray]
  exact List.mem_append_right _ member

theorem settled (marks : Marks s s') (before : s.Settled r) : s'.Settled r := by
  have colour := marks.kept before.nonWhite.not_white
  unfold Settled
  rw [colour, marks.holds, marks.refers, marks.isOpen]
  obtain ⟨black, kind, clean⟩ | ⟨gray, waits⟩ := before
  · exact .inl ⟨black, kind, fun r' holds => marks.nonWhite (clean r' holds)⟩
  · refine .inr ⟨gray, ?_⟩
    obtain member | isString | ⟨isOpen, clean⟩ := waits
    · exact .inl (member.imp id marks.mem_gray)
    · exact .inr (.inl isString)
    · exact .inr (.inr ⟨isOpen, fun r' refers => marks.nonWhite (clean r' refers)⟩)

theorem trans (first : Marks s s₁) (second : Marks s₁ s₂) : Marks s s₂ where
  background := second.background.trans first.background
  table := second.table.trans first.table
  thread := second.thread.trans first.thread
  grayagain := second.grayagain.trans first.grayagain
  weak := second.weak.trans first.weak
  kept {r} notWhite := by
    have same := first.kept notWhite
    have still : s₁.iswhite r = false := by
      unfold iswhite at notWhite ⊢
      rw [same]
      exact notWhite
    rw [second.kept still, same]
  turned {r} white := by
    obtain same | settled := first.turned white
    · have still : s₁.iswhite r = true := by
        unfold iswhite at white ⊢
        rw [same]
        exact white
      rw [← same]
      exact second.turned still
    · exact .inr (second.settled settled)
  gray := by
    obtain ⟨new₁, gray₁, nodup₁, fresh₁⟩ := first.gray
    obtain ⟨new₂, gray₂, nodup₂, fresh₂⟩ := second.gray
    refine ⟨new₂ ++ new₁, by rw [gray₂, gray₁, List.append_assoc], List.Nodup.append nodup₂ nodup₁ ?_, ?_⟩
    · intro o late early
      have white := (fresh₂ o late).2.1
      rw [(fresh₁ o early).2.2.not_white] at white
      cases white
    · intro o member
      rw [List.mem_append] at member
      cases member with
      | inl late =>
        obtain ⟨traversable, white, nonWhite⟩ := fresh₂ o late
        refine ⟨traversable, ?_, nonWhite⟩
        by_contra notWhite
        have same := first.kept (by simpa using notWhite)
        unfold iswhite at white notWhite
        rw [same] at white
        exact notWhite white
      | inr early =>
        obtain ⟨traversable, white, nonWhite⟩ := fresh₁ o early
        exact ⟨traversable, white, second.nonWhite nonWhite⟩

end Marks

/-! ## Marking one object -/

/-- The states differ in the colour of one object. -/
structure SameBut (o : GCRef) (s s' : State N) : Prop where
  background : s'.toBackground = s.toBackground
  table : s'.table = s.table
  thread : s'.thread = s.thread
  gray : s'.gray = s.gray
  grayagain : s'.grayagain = s.grayagain
  weak : s'.weak = s.weak
  colour : ∀ {r}, r ≠ o → s'.colour r = s.colour r

theorem sameBut_paint (s : State N) (o : GCRef) (f : Colour → Colour) : SameBut o s (s.paint o f) :=
  ⟨rfl, rfl, rfl, rfl, rfl, rfl, fun other => colour_paint_of_ne s f other⟩

theorem SameBut.refl (o : GCRef) (s : State N) : SameBut o s s := ⟨rfl, rfl, rfl, rfl, rfl, rfl, fun _ => rfl⟩

theorem iswhite_congr (same : s'.colour r = s.colour r) : s'.iswhite r = s.iswhite r := by
  unfold iswhite
  rw [same]

/-- A white object is given another colour, what it refers to is marked, and it may be given its
last colour after that. -/
theorem Marks.around (first : SameBut o s s₁) (marks : Marks s₁ s₂) (last : SameBut o s₂ s₃)
    (white : s.iswhite o = true) (turned : s₁.iswhite o = false) (settled : s₃.Settled o) : Marks s s₃ := by
  have open₁ : s₁.IsOpen = s.IsOpen := by
    funext o
    simp only [IsOpen, first.background]
  have open₃ : s₃.IsOpen = s₂.IsOpen := by
    funext o
    simp only [IsOpen, last.background]
  -- objects that were settled on the way stay settled
  have later : ∀ {r}, r ≠ o → s₂.Settled r → s₃.Settled r := by
    intro r other before
    have nonWhite : ∀ r', s₂.NonWhite r' → s₃.NonWhite r' := by
      intro r' before
      by_cases self : r' = o
      · subst self
        exact settled.nonWhite
      · exact (nonWhite_congr (last.colour self)).2 before
    unfold Settled
    rw [last.colour other, holds_congr last.background last.table last.thread,
      refers_congr last.background last.table last.thread, open₃, last.gray]
    obtain ⟨black, kind, clean⟩ | ⟨gray, waits⟩ := before
    · exact .inl ⟨black, kind, fun r' holds => nonWhite r' (clean r' holds)⟩
    · refine .inr ⟨gray, ?_⟩
      obtain member | isString | ⟨isOpen, clean⟩ := waits
      · exact .inl member
      · exact .inr (.inl isString)
      · exact .inr (.inr ⟨isOpen, fun r' refers => nonWhite r' (clean r' refers)⟩)
  refine ⟨last.background.trans (marks.background.trans first.background),
    last.table.trans (marks.table.trans first.table), last.thread.trans (marks.thread.trans first.thread),
    last.grayagain.trans (marks.grayagain.trans first.grayagain), last.weak.trans (marks.weak.trans first.weak),
    fun {r} notWhite => ?_, fun {r} isWhite => ?_, ?_⟩
  · have other : r ≠ o := by
      rintro rfl
      rw [white] at notWhite
      cases notWhite
    rw [last.colour other, marks.kept, first.colour other]
    rw [iswhite_congr (first.colour other)]
    exact notWhite
  · by_cases self : r = o
    · subst self
      exact .inr settled
    · rw [last.colour self, ← first.colour self]
      cases @Marks.turned _ _ _ marks r ((iswhite_congr (first.colour self)).trans isWhite) with
      | inl same => exact .inl same
      | inr before => exact .inr (later self before)
  · obtain ⟨new, gray, nodup, fresh⟩ := marks.gray
    refine ⟨new, by rw [last.gray, gray, first.gray], nodup, fun p member => ?_⟩
    obtain ⟨traversable, isWhite, nonWhite⟩ := fresh p member
    have other : p ≠ o := by
      rintro rfl
      rw [turned] at isWhite
      cases isWhite
    exact ⟨traversable, (iswhite_congr (first.colour other)).symm.trans isWhite,
      (nonWhite_congr (last.colour other)).2 nonWhite⟩

theorem colour_white2gray (white : s.iswhite o = true) : (s.white2gray o).colour o = some .gray := by
  obtain ⟨bit, colour⟩ := iswhite_iff.1 white
  rw [white2gray, colour_paint_self, colour]
  rfl

theorem white2gray_of_ne (other : r ≠ o) : (s.white2gray o).colour r = s.colour r := colour_paint_of_ne s _ other

theorem white2gray_of_not_white (notWhite : s.iswhite o = false) (r : GCRef) :
    (s.white2gray o).colour r = s.colour r := by
  rw [white2gray, colour_paint]
  split
  · next same =>
    subst same
    unfold iswhite at notWhite
    cases colour : s.colour r with
    | none => rfl
    | some c => cases c <;> simp_all
  · rfl

theorem stringmark_marks (s : State N) (a : Nat) : Marks s (s.white2gray (.string a)) := by
  by_cases white : s.iswhite (.string a) = true
  · refine Marks.around (sameBut_paint s _ _) (Marks.refl _) (SameBut.refl _ _) white ?_ ?_
    · exact NonWhite.not_white (.inl (colour_white2gray white))
    · exact .inr ⟨colour_white2gray white, .inr (.inl trivial)⟩
  · have same := @white2gray_of_not_white _ s (.string a) (by simpa using white)
    exact ⟨rfl, rfl, rfl, rfl, rfl, fun _ => same _, fun _ => .inl (same _), [], rfl, List.nodup_nil, by simp⟩

theorem linkgray_marks (white : s.iswhite o = true) (traversable : o.Traversable) : Marks s (s.linkgray o) where
  background := rfl
  table := rfl
  thread := rfl
  grayagain := rfl
  weak := rfl
  kept {r} notWhite := by
    have other : r ≠ o := by
      rintro rfl
      rw [white] at notWhite
      cases notWhite
    exact white2gray_of_ne other
  turned {r} _ := by
    by_cases self : r = o
    · subst self
      exact .inr (.inr ⟨colour_white2gray white, .inl ⟨traversable, List.mem_cons_self⟩⟩)
    · exact .inl (white2gray_of_ne self)
  gray := by
    refine ⟨[o], rfl, List.nodup_singleton o, fun p member => ?_⟩
    obtain rfl := List.mem_singleton.1 member
    exact ⟨traversable, white, .inl (colour_white2gray white)⟩

theorem linkgray_nonWhite (white : s.iswhite o = true) : (s.linkgray o).NonWhite o := .inl (colour_white2gray white)

/-- The object is marked, if it is there. -/
structure MarksObject (s : State N) (r : GCRef) (s' : State N) : Prop extends Marks s s' where
  marked : s.colour r ≠ none → s'.NonWhite r

theorem marktable_marks (s : State N) (a : Nat) : MarksObject s (.table a) (s.marktable a) := by
  unfold marktable
  split
  · next white => exact ⟨linkgray_marks white trivial, fun _ => linkgray_nonWhite white⟩
  · next notWhite => exact ⟨Marks.refl s, fun allocated => nonWhite_of_not_white allocated (by simpa using notWhite)⟩

theorem markmetatable_marks (s : State N) (mt : Option Nat) :
    Marks s (s.markmetatable mt) ∧
      ∀ a, mt = some a → s.colour (.table a) ≠ none → (s.markmetatable mt).NonWhite (.table a) := by
  cases mt with
  | none => exact ⟨Marks.refl s, fun a h => by cases h⟩
  | some a =>
    refine ⟨(marktable_marks s a).toMarks, fun b same => ?_⟩
    cases same
    exact (marktable_marks s a).marked

theorem holds_udata {a : Nat} : s.Holds (.udata a) r ↔ r ∈ (s.udata a).refs := by simp [Holds, Refers]

theorem mem_udata_refs {u : Udata} : r ∈ u.refs ↔ (∃ a, u.metatable = some a ∧ r = .table a) ∨ r = .table u.env := by
  simp [Udata.refs, eq_comm]

/-- Userdata turn black at once. -/
theorem reallymarkudata_marks (grounded : s.Grounded) {a : Nat} (white : s.iswhite (.udata a) = true) :
    Marks s (s.reallymarkvalue (.udata a)) ∧ (s.reallymarkvalue (.udata a)).NonWhite (.udata a) := by
  have allocated : s.colour (.udata a) ≠ none := by
    obtain ⟨bit, colour⟩ := iswhite_iff.1 white
    simp [colour]
  generalize start : (s.white2gray (.udata a)).gray2black (.udata a) = s₁
  have black : s₁.colour (.udata a) = some .black := by
    rw [← start, gray2black, colour_paint_self, colour_white2gray white]
    rfl
  have same : SameBut (.udata a) s s₁ := by
    rw [← start]
    refine ⟨rfl, rfl, rfl, rfl, rfl, rfl, fun {r} other => ?_⟩
    rw [gray2black, colour_paint_of_ne _ _ other, white2gray, colour_paint_of_ne _ _ other]
  have present : ∀ r ∈ (s.udata a).refs, s₁.colour r ≠ none := by
    intro r member
    have other : r ≠ .udata a := by
      rintro rfl
      simp [mem_udata_refs] at member
    rw [same.colour other]
    exact grounded.allocated allocated (show s.Refers (.udata a) r from member)
  have udata : s₁.udata = s.udata := by rw [same.background]
  obtain ⟨marks₂, marked₂⟩ := markmetatable_marks s₁ (s₁.udata a).metatable
  generalize middle : s₁.markmetatable (s₁.udata a).metatable = s₂ at marks₂ marked₂
  have marks₃ := marktable_marks s₂ (s₂.udata a).env
  have result : s.reallymarkvalue (.udata a) = s₂.marktable (s₂.udata a).env := by
    rw [← middle, ← start]
    rfl
  rw [result]
  have udata₂ : s₂.udata = s.udata := by rw [marks₂.background, same.background]
  have marks := marks₂.trans marks₃.toMarks
  have black₃ : (s₂.marktable (s₂.udata a).env).colour (.udata a) = some .black := by
    rw [marks.kept (NonWhite.not_white (.inr black)), black]
  refine ⟨Marks.around same marks (SameBut.refl _ _) white (NonWhite.not_white (.inr black)) ?_, .inr black₃⟩
  refine .inl ⟨black₃, ⟨by simp [GCRef.Traversable], by simp [GCRef.IsString], by simp [IsOpen]⟩, fun r holds => ?_⟩
  rw [holds_udata, marks.background, same.background, mem_udata_refs] at holds
  obtain ⟨m, isMetatable, rfl⟩ | rfl := holds
  · refine marks₃.nonWhite (marked₂ m (by rw [udata]; exact isMetatable) (present _ ?_))
    exact mem_udata_refs.2 (.inl ⟨m, isMetatable, rfl⟩)
  · have allocated₂ : s₂.colour (.table (s₂.udata a).env) ≠ none := by
      rw [udata₂]
      exact marks₂.allocated.2 (present _ (mem_udata_refs.2 (.inr rfl)))
    have marked := marks₃.marked allocated₂
    rw [udata₂] at marked ⊢
    exact marked

theorem gcvalue_ne_upval (v : TValue N) (u : Nat) : gcvalue v ≠ some (.upval u) := by
  cases v with
  | object tt a => cases tt <;> simp [gcvalue]
  | nil | boolean | lightuserdata | number | string | deadkey => simp [gcvalue]

theorem reallymarkvalue_marks (grounded : s.Grounded) (white : s.iswhite o = true) (value : ∀ u, o ≠ .upval u) :
    Marks s (s.reallymarkvalue o) ∧ (s.reallymarkvalue o).NonWhite o := by
  cases o with
  | string a => exact ⟨stringmark_marks s a, .inl (colour_white2gray white)⟩
  | udata a => exact reallymarkudata_marks grounded white
  | upval u => exact absurd rfl (value u)
  | proto | closure | table | thread => exact ⟨linkgray_marks white trivial, linkgray_nonWhite white⟩

/-- What a value refers to is marked. -/
structure MarksValues (s : State N) (vs : List (TValue N)) (s' : State N) : Prop extends Marks s s' where
  marked : ∀ v ∈ vs, ∀ r, gcvalue v = some r → s.colour r ≠ none → s'.NonWhite r

theorem markvalue_marks (grounded : s.Grounded) (v : TValue N) : MarksValues s [v] (s.markvalue v) := by
  unfold markvalue
  cases isRef : gcvalue v with
  | none =>
    refine ⟨Marks.refl s, fun w member r => ?_⟩
    obtain rfl := List.mem_singleton.1 member
    simp [isRef]
  | some o =>
    have only : ∀ w ∈ [v], ∀ r, gcvalue w = some r → r = o := by
      intro w member r same
      obtain rfl := List.mem_singleton.1 member
      rw [isRef] at same
      exact (Option.some.inj same).symm
    simp only
    split
    · next white =>
      obtain ⟨marks, nonWhite⟩ := reallymarkvalue_marks grounded white fun u same => gcvalue_ne_upval v u (same ▸ isRef)
      refine ⟨marks, fun w member r same _ => ?_⟩
      rw [only w member r same]
      exact nonWhite
    · next notWhite =>
      refine ⟨Marks.refl s, fun w member r same allocated => ?_⟩
      rw [only w member r same] at allocated ⊢
      exact nonWhite_of_not_white allocated (by simpa using notWhite)

theorem markvalues_marks (vs : List (TValue N)) : ∀ {s : State N}, s.Grounded → MarksValues s vs (s.markvalues vs) := by
  induction vs with
  | nil => exact fun _ => ⟨Marks.refl _, by simp⟩
  | cons v vs inductionHypothesis =>
    intro s grounded
    have first := markvalue_marks grounded v
    have rest := inductionHypothesis (first.grounded grounded)
    refine ⟨first.toMarks.trans rest.toMarks, fun w member r same allocated => ?_⟩
    cases List.mem_cons.1 member with
    | inl head =>
      subst head
      exact rest.nonWhite (first.marked w List.mem_cons_self r same allocated)
    | inr tail => exact rest.marked w tail r same (first.allocated.2 allocated)

theorem holds_upval {a : Nat} : s.Holds (.upval a) r ↔ gcvalue (s.upvalValue a) = some r := by simp [Holds, Refers]

/-- An upvalue turns black when it is closed; an open one stays gray. -/
theorem reallymarkupval_marks (grounded : s.Grounded) {a : Nat} (white : s.iswhite (.upval a) = true) :
    Marks s (s.reallymarkobject (.upval a)) ∧ (s.reallymarkobject (.upval a)).NonWhite (.upval a) := by
  have allocated : s.colour (.upval a) ≠ none := by
    obtain ⟨bit, colour⟩ := iswhite_iff.1 white
    simp [colour]
  have same : SameBut (.upval a) s (s.white2gray (.upval a)) := sameBut_paint s _ _
  have gray := colour_white2gray white
  have grounded₁ : (s.white2gray (.upval a)).Grounded := by
    refine ⟨fun {o r} present refers => ?_⟩
    rw [refers_congr same.background same.table same.thread] at refers
    have before : s.colour o ≠ none := by
      by_cases self : o = .upval a
      · subst self
        exact allocated
      · rwa [same.colour self] at present
    by_cases self : r = .upval a
    · subst self
      simp [gray]
    · rw [same.colour self]
      exact grounded.allocated before refers
  have marks := markvalue_marks grounded₁ ((s.white2gray (.upval a)).upvalValue a)
  generalize middle : (s.white2gray (.upval a)).markvalue ((s.white2gray (.upval a)).upvalValue a) = s₂ at marks
  have gray₂ : s₂.colour (.upval a) = some .gray := by
    rw [marks.kept (NonWhite.not_white (.inl gray)), gray]
  have value : ∀ {r}, gcvalue (s₂.upvalValue a) = some r → s₂.NonWhite r := by
    intro r isRef
    have unchanged : s₂.upvalValue a = (s.white2gray (.upval a)).upvalValue a := by
      simp only [upvalValue, marks.background, marks.thread]
    rw [unchanged] at isRef
    refine marks.marked _ List.mem_cons_self r isRef (grounded₁.allocated (o := .upval a) ?_ isRef)
    simp [gray]
  cases kind : s₂.upval a with
  | closed v =>
    have result : s.reallymarkobject (.upval a) = s₂.gray2black (.upval a) := by
      simp only [reallymarkobject, middle, kind]
    rw [result]
    have black : (s₂.gray2black (.upval a)).colour (.upval a) = some .black := by
      rw [gray2black, colour_paint_self, gray₂]
      rfl
    refine ⟨Marks.around same marks.toMarks (sameBut_paint s₂ _ _) white (NonWhite.not_white (.inl gray)) ?_, .inr black⟩
    refine .inl ⟨black, ⟨by simp [GCRef.Traversable], by simp [GCRef.IsString], ?_⟩, fun r holds => ?_⟩
    · rintro ⟨u, th, level, isUpval, isOpen⟩
      cases isUpval
      have isOpen' : s₂.upval a = .inStack th level := isOpen
      rw [kind] at isOpen'
      cases isOpen'
    · have isRef := holds_upval.1 holds
      have other : r ≠ .upval a := fun self => gcvalue_ne_upval _ a (self ▸ isRef)
      exact (nonWhite_congr (colour_paint_of_ne s₂ _ other)).2 (value isRef)
  | inStack th level =>
    have result : s.reallymarkobject (.upval a) = s₂ := by
      simp only [reallymarkobject, middle, kind]
    rw [result]
    refine ⟨Marks.around same marks.toMarks (SameBut.refl _ _) white (NonWhite.not_white (.inl gray)) ?_, .inl gray₂⟩
    exact .inr ⟨gray₂, .inr (.inr ⟨⟨a, th, level, rfl, kind⟩, fun r refers => value refers⟩)⟩

theorem reallymarkobject_marks (grounded : s.Grounded) (white : s.iswhite o = true) :
    Marks s (s.reallymarkobject o) ∧ (s.reallymarkobject o).NonWhite o := by
  cases o with
  | upval a => exact reallymarkupval_marks grounded white
  | string | udata | proto | closure | table | thread =>
    exact reallymarkvalue_marks grounded white fun u same => by cases same

theorem markobject_marks (grounded : s.Grounded) (o : GCRef) : MarksObject s o (s.markobject o) := by
  unfold markobject
  split
  · next white =>
    obtain ⟨marks, nonWhite⟩ := reallymarkobject_marks grounded white
    exact ⟨marks, fun _ => nonWhite⟩
  · next notWhite => exact ⟨Marks.refl s, fun allocated => nonWhite_of_not_white allocated (by simpa using notWhite)⟩

/-- All of the objects are marked. -/
structure MarksObjects (s : State N) (os : List GCRef) (s' : State N) : Prop extends Marks s s' where
  marked : ∀ o ∈ os, s.colour o ≠ none → s'.NonWhite o

theorem markobjects_marks (os : List GCRef) : ∀ {s : State N}, s.Grounded → MarksObjects s os (s.markobjects os) := by
  induction os with
  | nil => exact fun _ => ⟨Marks.refl _, by simp⟩
  | cons o os inductionHypothesis =>
    intro s grounded
    have first := markobject_marks grounded o
    have rest := inductionHypothesis (first.grounded grounded)
    refine ⟨first.toMarks.trans rest.toMarks, fun p member allocated => ?_⟩
    cases List.mem_cons.1 member with
    | inl head =>
      subst head
      exact rest.nonWhite (first.marked allocated)
    | inr tail => exact rest.marked p tail (first.allocated.2 allocated)

theorem stringmarks_marks (names : List (Option Nat)) (s : State N) :
    MarksObjects s ((names.filterMap id).map .string) (s.stringmarks names) := by
  unfold stringmarks
  generalize names.filterMap id = addresses
  induction addresses generalizing s with
  | nil => exact ⟨Marks.refl s, by simp⟩
  | cons a addresses inductionHypothesis =>
    have first := stringmark_marks s a
    have rest := inductionHypothesis (s.white2gray (.string a))
    refine ⟨first.trans rest.toMarks, fun p member allocated => ?_⟩
    cases List.mem_cons.1 member with
    | inl head =>
      subst head
      refine rest.nonWhite (nonWhite_of_not_white (first.allocated.2 allocated) ?_)
      by_cases white : s.iswhite (.string a) = true
      · exact NonWhite.not_white (.inl (colour_white2gray white))
      · rw [iswhite_congr (white2gray_of_not_white (by simpa using white) _)]
        simpa using white
    | inr tail => exact rest.marked p tail (first.allocated.2 allocated)

theorem markmt_marks (s : State N) :
    Marks s s.markmt ∧ ∀ tag a, s.mt tag = some a → s.colour (.table a) ≠ none → s.markmt.NonWhite (.table a) := by
  have each : ∀ (tags : List BasicType) (s : State N),
      Marks s (tags.foldl (fun s tag => s.markmetatable (s.mt tag)) s) ∧
      ∀ tag ∈ tags, ∀ a, s.mt tag = some a → s.colour (.table a) ≠ none →
        (tags.foldl (fun s tag => s.markmetatable (s.mt tag)) s).NonWhite (.table a) := by
    intro tags
    induction tags with
    | nil => exact fun s => ⟨Marks.refl s, by simp⟩
    | cons tag tags inductionHypothesis =>
      intro s
      obtain ⟨first, marked⟩ := markmetatable_marks s (s.mt tag)
      obtain ⟨rest, marked'⟩ := inductionHypothesis (s.markmetatable (s.mt tag))
      refine ⟨first.trans rest, fun tag' member a isMetatable allocated => ?_⟩
      cases List.mem_cons.1 member with
      | inl head =>
        subst head
        exact rest.nonWhite (marked a isMetatable allocated)
      | inr tail =>
        refine marked' tag' tail a ?_ (first.allocated.2 allocated)
        rw [first.background]
        exact isMetatable
  obtain ⟨marks, marked⟩ := each BasicType.all s
  exact ⟨marks, fun tag => marked tag (by cases tag <;> decide)⟩

end State

end Gafq.GC
