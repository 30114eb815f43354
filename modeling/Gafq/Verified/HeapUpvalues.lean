import Gafq.Func
import Gafq.Verified.GC.Creation
import Gafq.Verified.Upvalues

/-! # The upvalues of the heap

In the heap of the collector an open upvalue has a position in a stack, and the open upvalues are a list.
With the pointers into the stacks and the ring in their place, `gafqF_findupval` and `gafqF_close` do
the same.
-/

namespace Gafq.Upvalues.State

open GC (Colour GCRef gcvalue)

variable {N : Type} {a a' : GC.State N} {s s' : State N} {t : Thread} {th u w level fresh : Nat}

/-- The upvalue that a reference is to. -/
def upvalue? : GCRef → Option Nat
  | .upval u => some u
  | _ => none

/-- The pointers of `s` are the stack positions of the heap `a`. -/
structure Locates (a : GC.State N) (s : State N) : Prop where
  colour : ∀ u, a.colour (.upval u) = if s.allocated u then some (s.marked u) else none
  currentwhite : a.currentwhite = s.currentwhite
  gcstate : a.gcstate = s.gcstate
  openupval : ∀ {th t}, s.thread th = some t → (a.thread th).openupval = t.openupval
  stack : ∀ {th t i}, s.thread th = some t → i < t.stacksize → (a.thread th).stack i = s.mem (t.stack + i)
  opened : ∀ {th t u}, s.thread th = some t → u ∈ t.openupval →
    ∃ level, level < t.stacksize ∧ s.v u = .stack (t.stack + level) ∧ a.upval u = .inStack th level
  closed : ∀ {u}, s.allocated u = true → s.v u = .value → a.upval u = .closed (s.uv (.obj u)).u.read
  uvhead : ∀ {u}, u ∈ a.uvhead ↔ s.IsOpen u
  rootgc : a.rootgc.filterMap upvalue? = s.rootgc

namespace Locates

theorem isdead (locates : Locates a s) (allocated : s.allocated u = true) : a.isdead (.upval u) = s.isdead u := by
  unfold GC.State.isdead State.isdead
  rw [locates.colour, if_pos allocated, locates.currentwhite]
  rfl

theorem level_eq (locates : Locates a s) (thread : s.thread th = some t) (member : u ∈ t.openupval) :
    ∃ level, level < t.stacksize ∧ s.level u = t.stack + level ∧ a.level u = some level := by
  obtain ⟨level, inside, points, kind⟩ := locates.opened thread member
  exact ⟨level, inside, by simp [State.level, points], by simp [GC.State.level, kind]⟩

/-- The two searches come to the same place of the list. -/
theorem findLoop_eq (us : List Nat) (levels : ∀ p ∈ us, ∃ l, s.level p = t.stack + l ∧ a.level p = some l) :
    s.findLoop (t.stack + level) us =
      match us.dropWhile (a.above level) with
      | p :: rest => if a.level p = some level then .inl p else .inr (us.takeWhile (a.above level), p :: rest)
      | [] => .inr (us.takeWhile (a.above level), []) := by
  induction us with
  | nil => rfl
  | cons p rest inductionHypothesis =>
    obtain ⟨l, isLevel, isLevel'⟩ := levels p List.mem_cons_self
    have next := inductionHypothesis fun q member => levels q (List.mem_cons_of_mem p member)
    unfold findLoop
    rw [isLevel]
    by_cases higher : level < l
    · have isAbove : a.above level p = true := by simp [GC.State.above, isLevel', higher]
      rw [if_pos (by omega), if_neg (by omega), next, List.dropWhile_cons_of_pos isAbove, List.takeWhile_cons_of_pos isAbove]
      cases rest.dropWhile (a.above level) with
      | nil => rfl
      | cons q others => by_cases found : a.level q = some level <;> simp [found]
    · have notAbove : ¬ a.above level p = true := by simp [GC.State.above, isLevel', higher]
      rw [List.dropWhile_cons_of_neg notAbove, List.takeWhile_cons_of_neg notAbove]
      by_cases found : l = level
      · subst found
        simp [isLevel']
      · rw [if_neg (by omega)]
        simp [isLevel', found]

end Locates

/-! ## `gafqF_findupval` -/

theorem WellFormed.onRing_first (wellFormed : s.WellFormed) : s.OnRing (s.next .uvhead) := by
  obtain ⟨us, ring, onRing⟩ := wellFormed.ring
  obtain isHead | isObj := List.mem_cons.1 ring.first_mem
  · exact .inl isHead
  · obtain ⟨w, onList, isFirst⟩ := List.mem_map.1 isObj
    exact .inr ⟨w, isFirst.symm, (onRing w).1 onList⟩

/-- Closed upvalues are not touched by the creation of an open one. -/
theorem create_untouched {higher lower : List Nat} (wellFormed : s.WellFormed) (other : w ≠ fresh) :
    Untouched s (s.create th t level fresh higher lower) w := by
  obtain ⟨v', -, -⟩ := create_frame s th t level fresh higher lower
  generalize start : (s.alloc fresh { marked := .white s.currentwhite, v := .stack level, u := .l .uvhead (s.next .uvhead) }).setThread
    th { t with openupval := higher ++ fresh :: lower } = s₁
  have result : s.create th t level fresh higher lower =
      (s₁.setPrev (s₁.next (.obj fresh)) (.obj fresh)).setNext .uvhead (.obj fresh) := by rw [← start]; rfl
  have uv : s₁.uv (.obj w) = s.uv (.obj w) := by
    rw [← start]
    exact Function.update_of_ne (fun same => other (UvRef.obj.inj same)) ..
  have first : s₁.next (.obj fresh) = s.next .uvhead := by
    rw [← start]
    simp [setThread, alloc, next, Contents.next]
  have same := (setPrev_same s₁ (s₁.next (.obj fresh)) (.obj fresh)).trans (setNext_same _ .uvhead (.obj fresh))
  refine ⟨?_, ?_, ?_, fun _ closed => ?_⟩
  · show Function.update s.allocated fresh true w = _
    exact Function.update_of_ne other ..
  · rw [v', Function.update_of_ne other]
  · rw [result]
    exact (same.marked _).trans (congrArg UpVal.marked uv)
  · have notFirst : UvRef.obj w ≠ s₁.next (.obj fresh) := by
      rw [first]
      exact (wellFormed.onRing_first.not_closed closed).symm
    rw [result, ← uv]
    exact congrArg UpVal.u (Function.update_of_ne notFirst ..)

namespace Locates

/-- A dead upvalue is resurrected. -/
theorem resurrect (locates : Locates a s) (allocated : s.allocated u = true) (dead : s.isdead u = true) :
    Locates (a.changewhite (.upval u)) (s.setMarked u (.white s.currentwhite)) := by
  have isDead : a.colour (.upval u) = some (.white !a.currentwhite) := by
    have := locates.isdead allocated
    rw [dead] at this
    simpa [GC.State.isdead] using this
  have uv (w : Nat) : ((s.setMarked u (.white s.currentwhite)).uv (.obj w)).v = (s.uv (.obj w)).v ∧
      ((s.setMarked u (.white s.currentwhite)).uv (.obj w)).u = (s.uv (.obj w)).u := by
    by_cases same : w = u
    · subst same
      simp [setMarked]
    · simp [setMarked, same]
  refine ⟨fun w => ?_, locates.currentwhite, locates.gcstate, locates.openupval, locates.stack, fun thread member => ?_,
    fun isAllocated closed => ?_, ?_, locates.rootgc⟩
  · by_cases same : w = u
    · subst same
      rw [GC.State.changewhite, GC.State.colour_paint_self, isDead, if_pos (show (s.setMarked w _).allocated w = true from allocated)]
      simp [setMarked, marked, locates.currentwhite]
    · rw [GC.State.changewhite, GC.State.colour_paint_of_ne _ _ fun isSame => same (GCRef.upval.inj isSame), locates.colour]
      have kept : (s.setMarked u (.white s.currentwhite)).marked w = s.marked w := by simp [setMarked, marked, same]
      rw [kept]
      rfl
  · obtain ⟨level, inside, points, kind⟩ := locates.opened thread member
    exact ⟨level, inside, (uv _).1.trans points, kind⟩
  · rw [(uv _).2]
    exact locates.closed isAllocated ((uv _).1.symm.trans closed)
  · intro w
    rw [show a.changewhite (.upval u) = a.paint (.upval u) _ from rfl]
    refine locates.uvhead.trans (and_congr_right fun _ => not_congr ?_)
    rw [State.v, State.v, (uv w).1]

/-- A new upvalue is chained in the same place. -/
theorem create (locates : Locates a s) (wellFormed : s.WellFormed) (thread : s.thread th = some t) (inside : level < t.stacksize)
    (unused : s.allocated fresh = false) {higher lower : List Nat} (whole : t.openupval = higher ++ lower) :
    Locates { a.marknew (.upval fresh) with
        upval := Function.update a.upval fresh (.inStack th level)
        thread := Function.update a.thread th { a.thread th with openupval := higher ++ fresh :: lower }
        uvhead := fresh :: a.uvhead }
      (s.create th t (t.stack + level) fresh higher lower) := by
  obtain ⟨v', -, -⟩ := create_frame s th t (t.stack + level) fresh higher lower
  have untouched {w : Nat} (other : w ≠ fresh) : Untouched s (s.create th t (t.stack + level) fresh higher lower) w :=
    create_untouched wellFormed other
  have allocated' : (s.create th t (t.stack + level) fresh higher lower).allocated = Function.update s.allocated fresh true := rfl
  have thread' : (s.create th t (t.stack + level) fresh higher lower).thread =
      Function.update s.thread th (some { t with openupval := higher ++ fresh :: lower }) := rfl
  have mem' : (s.create th t (t.stack + level) fresh higher lower).mem = s.mem := rfl
  have white' : (s.create th t (t.stack + level) fresh higher lower).marked fresh = .white s.currentwhite := by
    generalize start : (s.alloc fresh { marked := .white s.currentwhite, v := .stack (t.stack + level), u := .l .uvhead (s.next .uvhead) }).setThread
      th { t with openupval := higher ++ fresh :: lower } = s₁
    have result : s.create th t (t.stack + level) fresh higher lower =
        (s₁.setPrev (s₁.next (.obj fresh)) (.obj fresh)).setNext .uvhead (.obj fresh) := by rw [← start]; rfl
    have same := (setPrev_same s₁ (s₁.next (.obj fresh)) (.obj fresh)).trans (setNext_same _ .uvhead (.obj fresh))
    rw [result]
    refine (same.marked (.obj fresh)).trans ?_
    rw [← start]
    simp [setThread, alloc]
  have apart {w : Nat} (isAllocated : s.allocated w = true) : w ≠ fresh := by
    rintro rfl
    rw [unused] at isAllocated
    cases isAllocated
  have ofThread {th' : Nat} {t' : Thread}
      (isThread : (s.create th t (t.stack + level) fresh higher lower).thread th' = some t') :
      th' = th ∧ t' = { t with openupval := higher ++ fresh :: lower } ∨ th' ≠ th ∧ s.thread th' = some t' := by
    rw [thread'] at isThread
    by_cases same : th' = th
    · subst same
      rw [Function.update_self] at isThread
      exact .inl ⟨rfl, (Option.some.inj isThread).symm⟩
    · rw [Function.update_of_ne same] at isThread
      exact .inr ⟨same, isThread⟩
  constructor
  case colour =>
    intro w
    show (a.marknew (.upval fresh)).colour (.upval w) = _
    rw [GC.State.colour_marknew, allocated']
    by_cases same : w = fresh
    · subst same
      rw [if_pos rfl, Function.update_self, if_pos rfl, white', locates.currentwhite]
    · rw [if_neg fun isSame => same (GCRef.upval.inj isSame), Function.update_of_ne same, (untouched same).marked]
      exact locates.colour w
  case currentwhite => exact locates.currentwhite
  case gcstate => exact locates.gcstate
  case openupval =>
    intro th' t' isThread
    obtain ⟨rfl, rfl⟩ | ⟨other, isThread⟩ := ofThread isThread
    · simp
    · simpa [other] using locates.openupval isThread
  case stack =>
    intro th' t' i isThread within
    rw [mem']
    obtain ⟨rfl, rfl⟩ | ⟨other, isThread⟩ := ofThread isThread
    · simpa using locates.stack thread within
    · simpa [other] using locates.stack isThread within
  case opened =>
    intro th' t' w isThread member
    have old {th' : Nat} {t' : Thread} (isThread : s.thread th' = some t') (member : w ∈ t'.openupval) :
        ∃ level', level' < t'.stacksize ∧ (s.create th t (t.stack + level) fresh higher lower).v w = .stack (t'.stack + level') ∧
          Function.update a.upval fresh (.inStack th level) w = .inStack th' level' := by
      have other := apart (wellFormed.openupval isThread member).1
      obtain ⟨level', below, points, kind⟩ := locates.opened isThread member
      exact ⟨level', below, (untouched other).v.trans points, (Function.update_of_ne other ..).trans kind⟩
    obtain ⟨rfl, rfl⟩ | ⟨-, isThread⟩ := ofThread isThread
    · obtain rfl | member : w = fresh ∨ w ∈ t.openupval := by
        simp only [whole, List.mem_append, List.mem_cons] at member ⊢
        tauto
      · exact ⟨level, inside, by rw [v', Function.update_self], Function.update_self ..⟩
      · have before := old thread member
        exact before
    · exact old isThread member
  case closed =>
    intro w isAllocated closed
    have other : w ≠ fresh := by
      rintro rfl
      rw [v', Function.update_self] at closed
      cases closed
    have before : s.allocated w = true := (untouched other).allocated.symm.trans isAllocated
    have wasClosed : s.v w = .value := (untouched other).v.symm.trans closed
    rw [(untouched other).contents before wasClosed]
    exact (Function.update_of_ne other ..).trans (locates.closed before wasClosed)
  case uvhead =>
    intro w
    show w ∈ fresh :: a.uvhead ↔ _
    unfold IsOpen
    rw [List.mem_cons, locates.uvhead]
    by_cases same : w = fresh
    · subst same
      simp [allocated', v']
    · rw [(untouched same).allocated, (untouched same).v]
      exact or_iff_right same

  case rootgc => exact locates.rootgc

/-- Both functions find the same upvalue, or create one in the same place. -/
theorem findupval (locates : Locates a s) (wellFormed : s.WellFormed) (thread : s.thread th = some t) (inside : level < t.stacksize)
    (unused : s.allocated fresh = false) :
    (s.findupval th (t.stack + level) fresh).1 = (a.findupval th level fresh).1 ∧
      Locates (a.findupval th level fresh).2 (s.findupval th (t.stack + level) fresh).2 := by
  have found := @findLoop_eq _ a s t level t.openupval fun p member => by
    obtain ⟨l, -, isLevel, isLevel'⟩ := locates.level_eq thread member
    exact ⟨l, isLevel, isLevel'⟩
  have whole : t.openupval = t.openupval.takeWhile (a.above level) ++ t.openupval.dropWhile (a.above level) :=
    List.takeWhile_append_dropWhile.symm
  unfold State.findupval GC.State.findupval
  rw [thread, locates.openupval thread]
  simp only
  rw [found]
  have member : ∀ p ∈ t.openupval.dropWhile (a.above level), p ∈ t.openupval := fun p inRest =>
    (List.dropWhile_suffix _).mem inRest
  cases rest : t.openupval.dropWhile (a.above level) with
  | nil =>
    rw [rest] at whole
    exact ⟨rfl, locates.create wellFormed thread inside unused whole⟩
  | cons p lower =>
    rw [rest] at whole member
    simp only
    by_cases here : a.level p = some level
    · have isAllocated := (wellFormed.openupval thread (member p List.mem_cons_self)).1
      rw [if_pos here, if_pos here, locates.isdead isAllocated]
      refine ⟨rfl, ?_⟩
      simp only
      split
      · next dead => exact locates.resurrect isAllocated dead
      · exact locates
    · rw [if_neg here, if_neg here]
      exact ⟨rfl, locates.create wellFormed thread inside unused whole⟩

end Locates

/-! ## The barrier of a closed upvalue -/

/-- Objects other than upvalues have been marked. -/
structure MarksOthers (a a' : GC.State N) : Prop where
  frame : a' = { a with marked := a'.marked, gray := a'.gray }
  upvals : ∀ u, a'.colour (.upval u) = a.colour (.upval u)

namespace MarksOthers

theorem refl (a : GC.State N) : MarksOthers a a := ⟨rfl, fun _ => rfl⟩

theorem trans {a₁ : GC.State N} (first : MarksOthers a a₁) (second : MarksOthers a₁ a') : MarksOthers a a' where
  frame := by rw [second.frame, first.frame]
  upvals u := (second.upvals u).trans (first.upvals u)

theorem paint (a : GC.State N) {o : GCRef} (notUpval : ∀ u, o ≠ .upval u) (f : Colour → Colour) : MarksOthers a (a.paint o f) :=
  ⟨rfl, fun u => GC.State.colour_paint_of_ne a f (notUpval u).symm⟩

theorem linkgray (a : GC.State N) {o : GCRef} (notUpval : ∀ u, o ≠ .upval u) : MarksOthers a (a.linkgray o) :=
  ⟨rfl, fun u => GC.State.colour_paint_of_ne a _ (notUpval u).symm⟩

theorem marktable (a : GC.State N) (h : Nat) : MarksOthers a (a.marktable h) := by
  unfold GC.State.marktable
  split
  · exact linkgray a nofun
  · exact refl a

theorem markmetatable (a : GC.State N) (mt : Option Nat) : MarksOthers a (a.markmetatable mt) := by
  cases mt with
  | none => exact refl a
  | some h => exact marktable a h

theorem reallymarkvalue (a : GC.State N) {o : GCRef} (notUpval : ∀ u, o ≠ .upval u) : MarksOthers a (a.reallymarkvalue o) := by
  cases o with
  | string p => exact paint a notUpval _
  | udata p => exact (((paint a notUpval _).trans (paint _ notUpval _)).trans (markmetatable _ _)).trans (marktable _ _)
  | upval u => exact absurd rfl (notUpval u)
  | proto | closure | table | thread => exact linkgray a notUpval

/-- In the mark phase the barrier marks the value. -/
theorem barrier (a : GC.State N) (phase : a.gcstate = .propagate) (p : GCRef) (x : TValue N) : MarksOthers a (a.barrier p x) := by
  unfold GC.State.barrier
  cases isRef : gcvalue x with
  | none => exact refl a
  | some o =>
    have notUpval : ∀ u, o ≠ .upval u := fun u same => GC.State.gcvalue_ne_upval x u (same ▸ isRef)
    have marked : a.reallymarkobject o = a.reallymarkvalue o := by
      cases o with
      | upval u => exact absurd rfl (notUpval u)
      | string | udata | proto | closure | table | thread => rfl
    simp only [GC.State.objbarrier, GC.State.barrierf, if_pos phase, marked]
    split
    · exact reallymarkvalue a notUpval
    · exact refl a

end MarksOthers

/-- `gafqC_linkupval`: a gray upvalue is turned black or white. -/
structure LinksUpval (a : GC.State N) (u : Nat) (a' : GC.State N) : Prop where
  frame : a' = { a with marked := a'.marked, gray := a'.gray, swept := a'.swept, unswept := a'.unswept }
  rootgc : a'.rootgc = .upval u :: a.rootgc
  colour : a'.colour (.upval u) =
    if a.colour (.upval u) = some .gray then some (if a.gcstate = .propagate then .black else .white a.currentwhite)
    else a.colour (.upval u)
  others : ∀ {w}, w ≠ u → a'.colour (.upval w) = a.colour (.upval w)

theorem linkupval_links (a : GC.State N) (u : Nat) : LinksUpval a u (a.linkupval u) := by
  have rootgc : (a.linkroot (.upval u)).rootgc = .upval u :: a.rootgc := GC.State.linkroot_rootgc ..
  have linked := GC.State.linkroot_frame a (.upval u)
  have result : a.linkupval u = if (a.linkroot (.upval u)).isgray (.upval u) then
      if (a.linkroot (.upval u)).gcstate = .propagate then
        ((a.linkroot (.upval u)).gray2black (.upval u)).barrier (.upval u) ((a.linkroot (.upval u)).upvalValue u)
      else (a.linkroot (.upval u)).makewhite (.upval u)
      else a.linkroot (.upval u) := rfl
  generalize a.linkroot (.upval u) = a₁ at rootgc linked result
  have colour (r : GCRef) : a₁.colour r = a.colour r := by rw [linked]; rfl
  have gcstate : a₁.gcstate = a.gcstate := by rw [linked]
  have apart {w : Nat} (other : w ≠ u) : GCRef.upval w ≠ .upval u := fun same => other (GCRef.upval.inj same)
  rw [result]
  by_cases isGray : a.colour (.upval u) = some .gray
  · rw [if_pos (show a₁.isgray (.upval u) = true by simp [GC.State.isgray, colour, isGray]), gcstate]
    by_cases phase : a.gcstate = .propagate
    · rw [if_pos phase]
      have marks := MarksOthers.barrier (a₁.gray2black (.upval u)) (gcstate.trans phase) (.upval u) (a₁.upvalValue u)
      refine ⟨?_, ?_, ?_, fun other => ?_⟩
      · rw [marks.frame, linked]
        rfl
      · rw [marks.frame]
        exact rootgc
      · rw [marks.upvals, GC.State.gray2black, GC.State.colour_paint_self, colour, isGray, if_pos rfl, if_pos phase]
        rfl
      · rw [marks.upvals, GC.State.gray2black, GC.State.colour_paint_of_ne _ _ (apart other), colour]
    · rw [if_neg phase]
      refine ⟨?_, rootgc, ?_, fun other => ?_⟩
      · rw [linked]
        rfl
      · rw [GC.State.makewhite, GC.State.colour_paint_self, colour, isGray, if_pos rfl, if_neg phase, linked]
        rfl
      · rw [GC.State.makewhite, GC.State.colour_paint_of_ne _ _ (apart other), colour]
  · rw [if_neg (show ¬ a₁.isgray (.upval u) = true by simp [GC.State.isgray, colour, isGray])]
    refine ⟨?_, rootgc, ?_, fun _ => colour _⟩
    · rw [linked]
    · rw [colour, if_neg isGray]

/-! ## `gafqF_close` -/

/-- What one iteration of `gafqF_close` does to the heap. -/
structure ClosesUpval (a : GC.State N) (th u : Nat) (rest : List Nat) (a' : GC.State N) : Prop where
  currentwhite : a'.currentwhite = a.currentwhite
  gcstate : a'.gcstate = a.gcstate
  thread : a'.thread = Function.update a.thread th { a.thread th with openupval := rest }
  uvhead : a'.uvhead = a.uvhead.filter (· != u)
  rootgc : a'.rootgc = if a.isdead (.upval u) then a.rootgc else .upval u :: a.rootgc
  upval : ∀ {w}, w ≠ u → a'.upval w = a.upval w
  colour : ∀ {w}, w ≠ u → a'.colour (.upval w) = a.colour (.upval w)
  dead : a.isdead (.upval u) = true → a'.colour (.upval u) = none
  kept : a.isdead (.upval u) = false → a'.upval u = .closed (a.upvalValue u) ∧ a'.colour (.upval u) =
    if a.colour (.upval u) = some .gray then some (if a.gcstate = .propagate then .black else .white a.currentwhite)
    else a.colour (.upval u)

theorem closeupval_closes (a : GC.State N) (th u : Nat) (rest : List Nat) :
    ClosesUpval a th u rest ((a.setThread th { a.thread th with openupval := rest }).closeupval u) := by
  have apart {w : Nat} (other : w ≠ u) : GCRef.upval w ≠ .upval u := fun same => other (GCRef.upval.inj same)
  have value : (a.setThread th { a.thread th with openupval := rest }).upvalValue u = a.upvalValue u := by
    simp only [GC.State.upvalValue, GC.State.setThread]
    cases a.upval u with
    | closed x => rfl
    | inStack th' level =>
      by_cases same : th' = th
      · subst same
        simp
      · simp [same]
  by_cases dead : a.isdead (.upval u) = true
  · have result : (a.setThread th { a.thread th with openupval := rest }).closeupval u =
        (a.setThread th { a.thread th with openupval := rest }).freeupval u := if_pos dead
    rw [result]
    refine ⟨rfl, rfl, rfl, rfl, (if_pos dead).symm, fun _ => rfl, fun other => Function.update_of_ne (apart other) .., fun _ =>
      Function.update_self .., fun alive => ?_⟩
    rw [dead] at alive
    cases alive
  · have result : (a.setThread th { a.thread th with openupval := rest }).closeupval u =
        GC.State.linkupval { a with
          thread := Function.update a.thread th { a.thread th with openupval := rest }
          uvhead := a.uvhead.filter (· != u)
          upval := Function.update a.upval u (.closed (a.upvalValue u)) } u := by
      rw [← value]
      exact if_neg dead
    have links := linkupval_links { a with
      thread := Function.update a.thread th { a.thread th with openupval := rest }
      uvhead := a.uvhead.filter (· != u)
      upval := Function.update a.upval u (.closed (a.upvalValue u)) } u
    rw [result]
    refine ⟨by rw [links.frame], by rw [links.frame], by rw [links.frame], by rw [links.frame], ?_, fun other => ?_, links.others,
      fun isDead => absurd isDead dead, fun _ => ⟨?_, links.colour⟩⟩
    · rw [if_neg dead]
      exact links.rootgc
    · rw [links.frame]
      exact Function.update_of_ne other ..
    · rw [links.frame]
      exact Function.update_self ..

theorem closeupval_fields (s : State N) (u : Nat) :
    (s.closeupval u).gcstate = s.gcstate ∧ (s.closeupval u).rootgc = (if s.isdead u then s.rootgc else u :: s.rootgc) ∧
    (s.isdead u = false → (s.closeupval u).marked u =
      if s.marked u = .gray then if s.gcstate = .propagate then .black else .white s.currentwhite else s.marked u) := by
  have same := unlinkupval_same s (.obj u)
  unfold closeupval
  by_cases dead : s.isdead u = true
  · rw [if_pos dead, if_pos dead]
    unfold freeupval
    refine ⟨?_, ?_, fun alive => ?_⟩
    · split
      · rw [same.frame]
      · rfl
    · split
      · rw [same.frame]
      · rfl
    · rw [dead] at alive
      cases alive
  · rw [if_neg dead, if_neg dead]
    simp only
    generalize unlinked : s.unlinkupval (.obj u) = s₁ at same
    have marked : (s₁.setUv (.obj u) { s₁.uv (.obj u) with u := .value (s₁.upvalValue u), v := .value }).marked u = s.marked u := by
      simp only [State.marked, setUv_uv, Function.update_self]
      exact same.marked (.obj u)
    have frame : s₁.setUv (.obj u) { s₁.uv (.obj u) with u := .value (s₁.upvalValue u), v := .value } = { s with
        uv := (s₁.setUv (.obj u) { s₁.uv (.obj u) with u := .value (s₁.upvalValue u), v := .value }).uv } := by
      rw [same.frame]
      rfl
    generalize s₁.setUv (.obj u) { s₁.uv (.obj u) with u := .value (s₁.upvalValue u), v := .value } = s₂ at marked frame
    obtain ⟨linked, -, -⟩ := linkupval_frame s₂ u
    refine ⟨by rw [linked, frame], by rw [linked, frame], fun _ => ?_⟩
    have gcstate : s₂.gcstate = s.gcstate := by rw [frame]
    have currentwhite : s₂.currentwhite = s.currentwhite := by rw [frame]
    have isResult : s₂.linkupval u = if s₂.marked u = .gray then
        if s₂.gcstate = .propagate then ({ s₂ with rootgc := u :: s₂.rootgc } : State N).setMarked u .black
        else ({ s₂ with rootgc := u :: s₂.rootgc } : State N).setMarked u (.white s₂.currentwhite)
      else { s₂ with rootgc := u :: s₂.rootgc } := rfl
    rw [isResult, marked, gcstate, currentwhite]
    split
    · split
      · simp [setMarked, State.marked]
      · simp [setMarked, State.marked]
    · exact marked

namespace Locates

/-- The first upvalue of the list is closed or freed. -/
theorem closeupval (locates : Locates a s) (wellFormed : s.WellFormed) (thread : s.thread th = some t) {rest : List Nat}
    (list : t.openupval = u :: rest) :
    Locates ((a.setThread th { a.thread th with openupval := rest }).closeupval u) ((s.offList th t u).closeupval u) := by
  have member : u ∈ t.openupval := list ▸ List.mem_cons_self
  have erased : t.openupval.erase u = rest := by rw [list, List.erase_cons_head]
  have isOpen := wellFormed.isOpen thread member
  have nodup := wellFormed.openNodup thread
  rw [list, List.nodup_cons] at nodup
  obtain ⟨level, inside, points, kind⟩ := locates.opened thread member
  have sameDead := locates.isdead isOpen.1
  have closes := closeupval_closes a th u rest
  obtain ⟨wellFormed', thread', mem', white', untouched, ended⟩ := closeupval_result wellFormed thread member
  obtain ⟨gcstate', rootgc', marked'⟩ := closeupval_fields (s.offList th t u) u
  rw [erased] at thread'
  generalize (s.offList th t u).closeupval u = s' at *
  generalize (a.setThread th { a.thread th with openupval := rest }).closeupval u = a' at *
  have value : a.upvalValue u = s.upvalValue u := by
    simp only [GC.State.upvalValue, kind, State.upvalValue, points]
    exact locates.stack thread inside
  have ofThread {th' : Nat} {t' : Thread} (isThread : s'.thread th' = some t') :
      th' = th ∧ t' = { t with openupval := rest } ∨ th' ≠ th ∧ s.thread th' = some t' := by
    rw [thread'] at isThread
    by_cases same : th' = th
    · subst same
      rw [Function.update_self] at isThread
      exact .inl ⟨rfl, (Option.some.inj isThread).symm⟩
    · rw [Function.update_of_ne same] at isThread
      exact .inr ⟨same, isThread⟩
  -- the upvalue is on no list any more
  have notOpen : ¬ s'.IsOpen u := by
    rintro ⟨isAllocated, stillOpen⟩
    cases dead : s.isdead u with
    | true =>
      rw [ended.dead dead] at isAllocated
      cases isAllocated
    | false => exact stillOpen (ended.kept dead).2.1
  have old {th' : Nat} {t' : Thread} {w : Nat} (isThread : s.thread th' = some t') (onList : w ∈ t'.openupval) (other : w ≠ u) :
      ∃ level', level' < t'.stacksize ∧ s'.v w = .stack (t'.stack + level') ∧ a'.upval w = .inStack th' level' := by
    obtain ⟨level', below, points', kind'⟩ := locates.opened isThread onList
    exact ⟨level', below, (untouched w other).v.trans points', (closes.upval other).trans kind'⟩
  constructor
  case colour =>
    intro w
    by_cases same : w = u
    · subst same
      cases dead : s.isdead w with
      | true => rw [closes.dead (sameDead.trans dead), ended.dead dead, if_neg Bool.false_ne_true]
      | false =>
        have turned : s'.marked w = if s.marked w = .gray then if s.gcstate = .propagate then .black else .white s.currentwhite
          else s.marked w := marked' dead
        rw [(closes.kept (sameDead.trans dead)).2, (ended.kept dead).1, if_pos rfl, turned, locates.colour, if_pos isOpen.1,
          locates.gcstate, locates.currentwhite]
        by_cases isGray : s.marked w = .gray
        · rw [if_pos isGray, if_pos (congrArg some isGray)]
        · rw [if_neg isGray, if_neg fun same => isGray (Option.some.inj same)]
    · rw [closes.colour same, locates.colour, (untouched w same).allocated, (untouched w same).marked]
  case currentwhite => exact (closes.currentwhite.trans locates.currentwhite).trans white'.symm
  case gcstate => exact (closes.gcstate.trans locates.gcstate).trans gcstate'.symm
  case openupval =>
    intro th' t' isThread
    rw [closes.thread]
    obtain ⟨rfl, rfl⟩ | ⟨other, isThread⟩ := ofThread isThread
    · simp
    · rw [Function.update_of_ne other]
      exact locates.openupval isThread
  case stack =>
    intro th' t' i isThread within
    rw [closes.thread, mem']
    obtain ⟨rfl, rfl⟩ | ⟨other, isThread⟩ := ofThread isThread
    · rw [Function.update_self]
      have before := locates.stack thread within
      exact before
    · rw [Function.update_of_ne other]
      exact locates.stack isThread within
  case opened =>
    intro th' t' w isThread onList
    obtain ⟨rfl, rfl⟩ | ⟨other, isThread⟩ := ofThread isThread
    · have before := old thread (list ▸ List.mem_cons_of_mem u onList) fun same => nodup.1 (same ▸ onList)
      exact before
    · refine old isThread onList ?_
      rintro rfl
      obtain ⟨level', -, -, kind'⟩ := locates.opened isThread onList
      rw [kind] at kind'
      cases kind'
      exact other rfl
  case closed =>
    intro w isAllocated closed
    by_cases same : w = u
    · subst same
      cases dead : s.isdead w with
      | true =>
        rw [ended.dead dead] at isAllocated
        cases isAllocated
      | false =>
        rw [(closes.kept (sameDead.trans dead)).1, (ended.kept dead).2.2, value]
        rfl
    · have before := (untouched w same).allocated.symm.trans isAllocated
      have wasClosed := (untouched w same).v.symm.trans closed
      rw [closes.upval same, (untouched w same).contents before wasClosed]
      exact locates.closed before wasClosed
  case uvhead =>
    intro w
    rw [closes.uvhead, List.mem_filter, locates.uvhead, bne_iff_ne]
    by_cases same : w = u
    · subst same
      simp [notOpen]
    · unfold IsOpen
      rw [(untouched w same).allocated, (untouched w same).v]
      exact and_iff_left same
  case rootgc =>
    have rootgc : s'.rootgc = if s.isdead u then s.rootgc else u :: s.rootgc := rootgc'
    rw [closes.rootgc, rootgc, sameDead]
    cases s.isdead u with
    | true => exact locates.rootgc
    | false => exact congrArg (u :: ·) locates.rootgc

/-- The loop of `gafqF_close`. -/
theorem closeLoop (us : List Nat) : ∀ {a : GC.State N} {s : State N} {t : Thread}, Locates a s → s.WellFormed →
    s.thread th = some t → t.openupval = us → Locates (a.closeLoop th level us) (s.closeLoop th (t.stack + level) us) := by
  induction us with
  | nil => exact fun locates _ _ _ => locates
  | cons u rest inductionHypothesis =>
    intro a s t locates wellFormed thread list
    have member : u ∈ t.openupval := list ▸ List.mem_cons_self
    obtain ⟨l, -, isLevel, isLevel'⟩ := locates.level_eq thread member
    have erased : t.openupval.erase u = rest := by rw [list, List.erase_cons_head]
    have offList : s.setThread th { t with openupval := rest } = s.offList th t u := by rw [State.offList, erased]
    unfold State.closeLoop GC.State.closeLoop
    by_cases atOrAbove : level ≤ l
    · rw [if_pos (show t.stack + level ≤ s.level u by omega),
        if_pos (show a.atOrAbove level u = true by simp [GC.State.atOrAbove, isLevel', atOrAbove]), thread]
      simp only
      rw [offList]
      obtain ⟨wellFormed', thread', -⟩ := closeupval_result wellFormed thread member
      rw [erased] at thread'
      have closed := @inductionHypothesis _ _ { t with openupval := rest } (locates.closeupval wellFormed thread list) wellFormed'
        (by rw [thread', Function.update_self]) rfl
      exact closed
    · rw [if_neg (show ¬ t.stack + level ≤ s.level u by omega),
        if_neg (show ¬ a.atOrAbove level u = true by simp [GC.State.atOrAbove, isLevel', atOrAbove])]
      exact locates

/-- The upvalues of a stack from a slot on are closed. -/
theorem close (locates : Locates a s) (wellFormed : s.WellFormed) (thread : s.thread th = some t) (level : Nat) :
    Locates (a.close th level) (s.close th (t.stack + level)) := by
  unfold State.close GC.State.close
  rw [thread, locates.openupval thread]
  exact locates.closeLoop t.openupval wellFormed thread rfl

end Locates

end Gafq.Upvalues.State
