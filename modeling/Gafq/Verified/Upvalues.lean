import Gafq.Upval
import Gafq.Base.Ring

/-! # The list and the ring of open upvalues

Every open upvalue is on the list of the thread whose stack it points into and on the ring, and the
list of a thread is ordered by stack position.  An upvalue that has been closed, and no other one, is
on `rootgc`.
-/

namespace Gafq.Upvalues.State

open Base
open GC (Colour GCPhase)

variable {N : Type} {s s' : State N} {th u w level fresh : Nat} {t : Thread}

/-! ## Links -/

@[simp] theorem setUv_uv (s : State N) (r : UvRef) (x : UpVal N) : (s.setUv r x).uv = Function.update s.uv r x := rfl

@[simp] theorem next_setPrev (s : State N) (r x : UvRef) : (s.setPrev r x).next = s.next := by
  funext q
  by_cases same : q = r
  · subst same
    simp [setPrev, next, Contents.next]
  · simp [setPrev, next, same]

@[simp] theorem prev_setPrev (s : State N) (r x : UvRef) : (s.setPrev r x).prev = Function.update s.prev r x := by
  funext q
  by_cases same : q = r
  · subst same
    simp [setPrev, prev, Contents.prev]
  · simp [setPrev, prev, same]

@[simp] theorem next_setNext (s : State N) (r x : UvRef) : (s.setNext r x).next = Function.update s.next r x := by
  funext q
  by_cases same : q = r
  · subst same
    simp [setNext, next, Contents.next]
  · simp [setNext, next, same]

@[simp] theorem prev_setNext (s : State N) (r x : UvRef) : (s.setNext r x).prev = s.prev := by
  funext q
  by_cases same : q = r
  · subst same
    simp [setNext, prev, Contents.prev]
  · simp [setNext, prev, same]

/-- Writing the links changes nothing else. -/
structure SameUpvals (s s' : State N) : Prop where
  frame : s' = { s with uv := s'.uv }
  v : ∀ r, (s'.uv r).v = (s.uv r).v
  marked : ∀ r, (s'.uv r).marked = (s.uv r).marked

theorem setPrev_same (s : State N) (r x : UvRef) : SameUpvals s (s.setPrev r x) := by
  refine ⟨rfl, fun q => ?_, fun q => ?_⟩ <;> by_cases same : q = r
  · subst same; simp [setPrev]
  · simp [setPrev, same]
  · subst same; simp [setPrev]
  · simp [setPrev, same]

theorem setNext_same (s : State N) (r x : UvRef) : SameUpvals s (s.setNext r x) := by
  refine ⟨rfl, fun q => ?_, fun q => ?_⟩ <;> by_cases same : q = r
  · subst same; simp [setNext]
  · simp [setNext, same]
  · subst same; simp [setNext]
  · simp [setNext, same]

theorem SameUpvals.trans {s₁ : State N} (first : SameUpvals s s₁) (second : SameUpvals s₁ s') : SameUpvals s s' where
  frame := by
    rw [second.frame, first.frame]
  v r := (second.v r).trans (first.v r)
  marked r := (second.marked r).trans (first.marked r)

theorem unlinkupval_same (s : State N) (r : UvRef) : SameUpvals s (s.unlinkupval r) :=
  (setPrev_same s _ _).trans (setNext_same _ _ _)

theorem unlinkupval_prev (s : State N) (r : UvRef) :
    (s.unlinkupval r).prev = Function.update s.prev (s.next r) (s.prev r) := by
  simp [unlinkupval]

theorem unlinkupval_next (s : State N) (r : UvRef) :
    (s.unlinkupval r).next = Function.update s.next (s.prev r) (s.next r) := by
  have same : Function.update s.prev (s.next r) (s.prev r) r = s.prev r := by
    by_cases self : r = s.next r
    · rw [← self, Function.update_self]
    · exact Function.update_of_ne self ..
  simp [unlinkupval, same]

/-- The contents of an upvalue that is not a neighbour stay as they are. -/
theorem unlinkupval_u (s : State N) {r q : UvRef} (notNext : q ≠ s.next r) (notPrev : q ≠ s.prev r) :
    ((s.unlinkupval r).uv q).u = (s.uv q).u := by
  have same : Function.update s.prev (s.next r) (s.prev r) r = s.prev r := by
    by_cases self : r = s.next r
    · rw [← self, Function.update_self]
    · exact Function.update_of_ne self ..
  have first : (s.setPrev (s.next r) (s.prev r)).uv q = s.uv q := Function.update_of_ne notNext ..
  have second : (s.unlinkupval r).uv q = (s.setPrev (s.next r) (s.prev r)).uv q := by
    unfold unlinkupval
    simp only [prev_setPrev, same]
    exact Function.update_of_ne notPrev ..
  rw [second, first]

/-! ## The invariant -/

def IsOpen (s : State N) (u : Nat) : Prop := s.allocated u = true ∧ s.v u ≠ .value

/-- The nodes of the ring. -/
def OnRing (s : State N) (r : UvRef) : Prop := r = .uvhead ∨ ∃ u, r = .obj u ∧ s.IsOpen u

structure WellFormed (s : State N) : Prop where
  ring : ∃ us : List Nat, Ring s.next s.prev .uvhead (us.map .obj) ∧ ∀ u, u ∈ us ↔ s.IsOpen u
  openupval : ∀ {th t u}, s.thread th = some t → u ∈ t.openupval →
    s.allocated u = true ∧ ∃ p, s.v u = .stack p ∧ t.HasSlot p
  listed : ∀ {u}, s.IsOpen u → ∃ th t, s.thread th = some t ∧ u ∈ t.openupval
  sorted : ∀ {th t}, s.thread th = some t → t.openupval.Pairwise fun a b => s.level b < s.level a
  apart : ∀ {th th' t t'}, th ≠ th' → s.thread th = some t → s.thread th' = some t' →
    t.stack + t.stacksize ≤ t'.stack ∨ t'.stack + t'.stacksize ≤ t.stack
  nodup : s.rootgc.Nodup
  rootgc : ∀ {u}, u ∈ s.rootgc ↔ s.allocated u = true ∧ s.v u = .value

namespace WellFormed

theorem isOpen (wellFormed : s.WellFormed) (thread : s.thread th = some t) (member : u ∈ t.openupval) : s.IsOpen u := by
  obtain ⟨allocated, p, points, -⟩ := wellFormed.openupval thread member
  exact ⟨allocated, by rw [points]; nofun⟩

theorem openNodup (wellFormed : s.WellFormed) (thread : s.thread th = some t) : t.openupval.Nodup :=
  (wellFormed.sorted thread).imp fun {a b} below same => by
    rw [same] at below
    exact absurd below (Nat.lt_irrefl _)

/-- An upvalue is on one list only, as the stacks do not overlap. -/
theorem sameThread {th' : Nat} {t' : Thread} (wellFormed : s.WellFormed) (thread : s.thread th = some t)
    (thread' : s.thread th' = some t') (member : u ∈ t.openupval) (member' : u ∈ t'.openupval) : th = th' := by
  by_contra other
  obtain ⟨-, p, points, low, high⟩ := wellFormed.openupval thread member
  obtain ⟨-, q, points', low', high'⟩ := wellFormed.openupval thread' member'
  obtain rfl : p = q := Pointer.stack.inj (points.symm.trans points')
  obtain before | behind := wellFormed.apart other thread thread' <;> omega

/-- What the invariant depends on. -/
theorem congr (wellFormed : s.WellFormed) (next : ∀ r, s.OnRing r → s'.next r = s.next r)
    (prev : ∀ r, s.OnRing r → s'.prev r = s.prev r) (v : s'.v = s.v)
    (allocated : s'.allocated = s.allocated) (thread : s'.thread = s.thread) (rootgc : s'.rootgc = s.rootgc) :
    s'.WellFormed := by
  have isOpen : ∀ u, s'.IsOpen u ↔ s.IsOpen u := fun u => by simp only [IsOpen, v, allocated]
  have level : s'.level = s.level := by
    funext u
    simp only [State.level, v]
  constructor
  · obtain ⟨us, ring, members⟩ := wellFormed.ring
    have onRing : ∀ r ∈ UvRef.uvhead :: us.map .obj, s.OnRing r := by
      intro r member
      obtain rfl | isObj := List.mem_cons.1 member
      · exact .inl rfl
      · obtain ⟨u, onList, rfl⟩ := List.mem_map.1 isObj
        exact .inr ⟨u, rfl, (members u).1 onList⟩
    exact ⟨us, ring.congr (fun r member => next r (onRing r member)) (fun r member => prev r (onRing r member)),
      fun u => (members u).trans (isOpen u).symm⟩
  · intro th t u isThread member
    rw [allocated, v]
    exact wellFormed.openupval (thread ▸ isThread) member
  · intro u openUpval
    rw [thread]
    exact wellFormed.listed ((isOpen u).1 openUpval)
  · intro th t isThread
    rw [level]
    exact wellFormed.sorted (thread ▸ isThread)
  · intro th th' t t' other isThread isThread'
    exact wellFormed.apart other (thread ▸ isThread) (thread ▸ isThread')
  · rw [rootgc]
    exact wellFormed.nodup
  · intro u
    rw [rootgc, allocated, v]
    exact wellFormed.rootgc

end WellFormed

theorem newstate_wellFormed : (newstate : State N).WellFormed := by
  constructor
  · exact ⟨[], Ring.empty rfl rfl, fun u => ⟨fun member => (nomatch member), fun isOpen => (nomatch isOpen.1)⟩⟩
  · exact fun isThread => nomatch isThread
  · exact fun isOpen => nomatch isOpen.1
  · exact fun isThread => nomatch isThread
  · exact fun _ isThread => nomatch isThread
  · exact List.nodup_nil
  · exact fun {u} => ⟨fun member => (nomatch member), fun isClosed => (nomatch isClosed.1)⟩

/-! ## Marks and values -/

theorem setMarked_wellFormed (c : Colour) (wellFormed : s.WellFormed) : (s.setMarked u c).WellFormed := by
  have same : ∀ r, ((s.setMarked u c).uv r).v = (s.uv r).v ∧ ((s.setMarked u c).uv r).u = (s.uv r).u := by
    intro r
    by_cases self : r = .obj u
    · subst self
      simp [setMarked]
    · simp [setMarked, self]
  refine wellFormed.congr (fun r _ => ?_) (fun r _ => ?_) (funext fun w => (same (.obj w)).1) rfl rfl rfl
  · simp only [next, (same r).2]
  · simp only [prev, (same r).2]

theorem setSlot_wellFormed (p : Nat) (x : TValue N) (wellFormed : s.WellFormed) : (s.setSlot p x).WellFormed :=
  wellFormed.congr (fun _ _ => rfl) (fun _ _ => rfl) rfl rfl rfl rfl

theorem setUpvalValue_wellFormed (x : TValue N) (wellFormed : s.WellFormed) : (s.setUpvalValue u x).WellFormed := by
  unfold setUpvalValue
  split
  · exact setSlot_wellFormed _ x wellFormed
  · next points =>
    -- the upvalue is closed, so its contents are no links
    have apart : ∀ r, s.OnRing r → r ≠ .obj u := by
      rintro r (rfl | ⟨w, rfl, isOpen⟩)
      · nofun
      · rintro ⟨⟩
        exact isOpen.2 points
    refine wellFormed.congr (fun r onRing => ?_) (fun r onRing => ?_) (funext fun w => ?_) rfl rfl rfl
    · simp [next, apart r onRing]
    · simp [prev, apart r onRing]
    · by_cases self : w = u
      · subst self
        simp [v]
      · simp [v, self]

/-! ## Finding an upvalue -/

theorem findLoop_inl {us : List Nat} (found : s.findLoop level us = .inl u) : u ∈ us ∧ s.level u = level := by
  induction us with
  | nil => cases found
  | cons p rest inductionHypothesis =>
    unfold findLoop at found
    split at found
    · split at found
      · next isLevel =>
        cases found
        exact ⟨List.mem_cons_self, isLevel⟩
      · cases result : s.findLoop level rest with
        | inl w =>
          rw [result] at found
          cases found
          obtain ⟨inRest, isLevel⟩ := inductionHypothesis result
          exact ⟨List.mem_cons_of_mem p inRest, isLevel⟩
        | inr parts =>
          rw [result] at found
          cases found
    · cases found

/-- The place for a new upvalue in the list. -/
theorem findLoop_inr {us higher lower : List Nat} (sorted : us.Pairwise fun a b => s.level b < s.level a)
    (absent : s.findLoop level us = .inr (higher, lower)) :
    us = higher ++ lower ∧ (∀ a ∈ higher, level < s.level a) ∧ ∀ b ∈ lower, s.level b < level := by
  induction us generalizing higher lower with
  | nil =>
    cases absent
    exact ⟨rfl, nofun, nofun⟩
  | cons p rest inductionHypothesis =>
    obtain ⟨below, sorted'⟩ := List.pairwise_cons.1 sorted
    unfold findLoop at absent
    split at absent
    · next atOrAbove =>
      split at absent
      · cases absent
      · next other =>
        cases result : s.findLoop level rest with
        | inl w =>
          rw [result] at absent
          cases absent
        | inr parts =>
          rw [result] at absent
          cases absent
          obtain ⟨split, above, isLower⟩ := inductionHypothesis sorted' result
          refine ⟨congrArg (p :: ·) split, fun a member => ?_, isLower⟩
          obtain rfl | inRest := List.mem_cons.1 member
          · exact Nat.lt_of_le_of_ne atOrAbove fun same => other same.symm
          · exact above a inRest
    · next notAbove =>
      cases absent
      refine ⟨rfl, nofun, fun b member => ?_⟩
      obtain rfl | inRest := List.mem_cons.1 member
      · omega
      · have lower := below b inRest
        omega

/-- There is one upvalue for a slot. -/
theorem level_injective {us : List Nat} (sorted : us.Pairwise fun a b => s.level b < s.level a) (member : u ∈ us)
    (member' : w ∈ us) (same : s.level u = s.level w) : u = w := by
  induction us with
  | nil => cases member
  | cons p rest inductionHypothesis =>
    obtain ⟨below, sorted'⟩ := List.pairwise_cons.1 sorted
    obtain rfl | inRest := List.mem_cons.1 member <;> obtain rfl | inRest' := List.mem_cons.1 member'
    · rfl
    · have lower := below w inRest'
      omega
    · have lower := below u inRest
      omega
    · exact inductionHypothesis sorted' inRest inRest'

/-- The upvalue for a slot is found while it is open. -/
theorem findLoop_found {us : List Nat} (sorted : us.Pairwise fun a b => s.level b < s.level a) (member : u ∈ us)
    (isLevel : s.level u = level) : s.findLoop level us = .inl u := by
  cases result : s.findLoop level us with
  | inl w =>
    obtain ⟨member', isLevel'⟩ := findLoop_inl result
    rw [level_injective sorted member member' (isLevel.trans isLevel'.symm)]
  | inr parts =>
    obtain ⟨rfl, higher, lower⟩ := findLoop_inr sorted result
    obtain isHigher | isLower := List.mem_append.1 member
    · have above := higher u isHigher
      omega
    · have below := lower u isLower
      omega

/-- What an upvalue has when it is created. -/
theorem create_frame (s : State N) (th : Nat) (t : Thread) (level fresh : Nat) (higher lower : List Nat) :
    (s.create th t level fresh higher lower).v = Function.update s.v fresh (.stack level) ∧
    (s.create th t level fresh higher lower).next =
      Function.update (Function.update s.next (.obj fresh) (s.next .uvhead)) .uvhead (.obj fresh) ∧
    (s.create th t level fresh higher lower).prev =
      Function.update (Function.update s.prev (.obj fresh) .uvhead) (s.next .uvhead) (.obj fresh) := by
  generalize start : (s.alloc fresh { marked := .white s.currentwhite, v := .stack level, u := .l .uvhead (s.next .uvhead) }).setThread
    th { t with openupval := higher ++ fresh :: lower } = s₁
  have result : s.create th t level fresh higher lower =
      (s₁.setPrev (s₁.next (.obj fresh)) (.obj fresh)).setNext .uvhead (.obj fresh) := by rw [← start]; rfl
  have next₁ : s₁.next = Function.update s.next (.obj fresh) (s.next .uvhead) := by
    funext r
    rw [← start]
    by_cases self : r = .obj fresh
    · subst self
      simp [setThread, alloc, next, Contents.next]
    · simp [setThread, alloc, next, self]
  have prev₁ : s₁.prev = Function.update s.prev (.obj fresh) .uvhead := by
    funext r
    rw [← start]
    by_cases self : r = .obj fresh
    · subst self
      simp [setThread, alloc, prev, Contents.prev]
    · simp [setThread, alloc, prev, self]
  have v₁ : s₁.v = Function.update s.v fresh (.stack level) := by
    funext w
    rw [← start]
    by_cases self : w = fresh
    · subst self
      simp [setThread, alloc, v]
    · simp [setThread, alloc, v, self]
  have same := (setPrev_same s₁ (s₁.next (.obj fresh)) (.obj fresh)).trans (setNext_same _ .uvhead (.obj fresh))
  rw [result]
  refine ⟨?_, ?_, ?_⟩
  · rw [← v₁]
    exact funext fun w => same.v (.obj w)
  · rw [next_setNext, next_setPrev, next₁]
  · rw [prev_setNext, prev_setPrev, prev₁, next₁, Function.update_self]

theorem create_wellFormed {higher lower : List Nat} (wellFormed : s.WellFormed) (thread : s.thread th = some t)
    (slot : t.HasSlot level) (unused : s.allocated fresh = false) (absent : s.findLoop level t.openupval = .inr (higher, lower)) :
    (s.create th t level fresh higher lower).WellFormed := by
  obtain ⟨split, above, below⟩ := findLoop_inr (wellFormed.sorted thread) absent
  obtain ⟨v', next', prev'⟩ := create_frame s th t level fresh higher lower
  have allocated' : (s.create th t level fresh higher lower).allocated = Function.update s.allocated fresh true := rfl
  have thread' : (s.create th t level fresh higher lower).thread =
      Function.update s.thread th (some { t with openupval := higher ++ fresh :: lower }) := rfl
  have rootgc' : (s.create th t level fresh higher lower).rootgc = s.rootgc := rfl
  generalize s.create th t level fresh higher lower = s' at v' next' prev' allocated' thread' rootgc'
  have notFresh : ∀ {w}, s.allocated w = true → w ≠ fresh := by
    rintro w allocated rfl
    rw [unused] at allocated
    cases allocated
  have kept : ∀ {w}, s.allocated w = true → s'.v w = s.v w ∧ s'.allocated w = true ∧ s'.level w = s.level w := by
    intro w allocated
    have sameV : s'.v w = s.v w := by rw [v', Function.update_of_ne (notFresh allocated)]
    refine ⟨sameV, ?_, ?_⟩
    · rw [allocated', Function.update_of_ne (notFresh allocated), allocated]
    · simp only [State.level, sameV]
  have freshV : s'.v fresh = .stack level := by rw [v', Function.update_self]
  have isOpen : ∀ w, s'.IsOpen w ↔ w = fresh ∨ s.IsOpen w := by
    intro w
    by_cases self : w = fresh
    · subst self
      simp [IsOpen, freshV, allocated']
    · simp [IsOpen, v', allocated', self]
  -- the list of the thread
  have members : ∀ {w}, w ∈ higher ++ fresh :: lower ↔ w = fresh ∨ w ∈ t.openupval := by
    intro w
    rw [split]
    simp only [List.mem_append, List.mem_cons]
    tauto
  have threads : ∀ {th' t'}, s'.thread th' = some t' → ∃ t₀, s.thread th' = some t₀ ∧ t'.stack = t₀.stack ∧
      t'.stacksize = t₀.stacksize ∧ (th' = th ∧ t'.openupval = higher ++ fresh :: lower ∨ th' ≠ th ∧ t' = t₀) := by
    intro th' t' isThread
    rw [thread'] at isThread
    by_cases self : th' = th
    · subst self
      rw [Function.update_self] at isThread
      cases isThread
      exact ⟨t, thread, rfl, rfl, .inl ⟨rfl, rfl⟩⟩
    · rw [Function.update_of_ne self] at isThread
      exact ⟨t', isThread, rfl, rfl, .inr ⟨self, rfl⟩⟩
  constructor
  · obtain ⟨us, ring, onRing⟩ := wellFormed.ring
    refine ⟨fresh :: us, ?_, fun w => ?_⟩
    · rw [next', prev', List.map_cons]
      refine ring.push fun member => ?_
      obtain isHead | isObj := List.mem_cons.1 member
      · cases isHead
      · obtain ⟨w, onList, same⟩ := List.mem_map.1 isObj
        cases same
        exact notFresh ((onRing _).1 onList).1 rfl
    · rw [List.mem_cons, isOpen, onRing]
  · intro th' t' w isThread member
    obtain ⟨t₀, isThread₀, stack, stacksize, ⟨rfl, list⟩ | ⟨-, rfl⟩⟩ := threads isThread
    · obtain rfl := Option.some.inj (thread.symm.trans isThread₀)
      rw [list, members] at member
      obtain rfl | old := member
      · refine ⟨by rw [allocated', Function.update_self], level, freshV, ?_⟩
        unfold Thread.HasSlot
        rw [stack, stacksize]
        exact slot
      · obtain ⟨allocated, p, points, hasSlot⟩ := wellFormed.openupval thread old
        refine ⟨(kept allocated).2.1, p, (kept allocated).1.trans points, ?_⟩
        unfold Thread.HasSlot
        rw [stack, stacksize]
        exact hasSlot
    · obtain ⟨allocated, p, points, hasSlot⟩ := wellFormed.openupval isThread₀ member
      exact ⟨(kept allocated).2.1, p, (kept allocated).1.trans points, hasSlot⟩
  · intro w openUpval
    obtain rfl | before := (isOpen w).1 openUpval
    · exact ⟨th, _, by rw [thread', Function.update_self], by simp⟩
    · obtain ⟨th', t', isThread, member⟩ := wellFormed.listed before
      by_cases self : th' = th
      · subst self
        obtain rfl := Option.some.inj (thread.symm.trans isThread)
        exact ⟨th', _, by rw [thread', Function.update_self], members.2 (.inr member)⟩
      · exact ⟨th', t', by rw [thread', Function.update_of_ne self, isThread], member⟩
  · intro th' t' isThread
    obtain ⟨t₀, isThread₀, -, -, ⟨rfl, list⟩ | ⟨-, rfl⟩⟩ := threads isThread
    · obtain rfl := Option.some.inj (thread.symm.trans isThread₀)
      have sorted := wellFormed.sorted thread
      rw [split] at sorted
      have isAllocated : ∀ {w}, w ∈ higher ++ lower → s.allocated w = true := fun member =>
        (wellFormed.openupval thread (split ▸ member)).1
      have levels : ∀ {w}, w ∈ higher ++ lower → s'.level w = s.level w := fun member => (kept (isAllocated member)).2.2
      have freshLevel : s'.level fresh = level := by simp only [State.level, freshV]
      obtain ⟨sortedHigher, sortedLower, across⟩ := List.pairwise_append.1 sorted
      rw [list]
      refine List.pairwise_append.2 ⟨?_, List.pairwise_cons.2 ⟨fun b isLower => ?_, ?_⟩, fun a isHigher b isLower => ?_⟩
      · refine sortedHigher.imp_of_mem fun inHigher inHigher' lower => ?_
        rw [levels (List.mem_append_left _ inHigher), levels (List.mem_append_left _ inHigher')]
        exact lower
      · rw [levels (List.mem_append_right _ isLower), freshLevel]
        exact below b isLower
      · refine sortedLower.imp_of_mem fun inLower inLower' lower => ?_
        rw [levels (List.mem_append_right _ inLower), levels (List.mem_append_right _ inLower')]
        exact lower
      · rw [levels (List.mem_append_left _ isHigher)]
        obtain rfl | inLower := List.mem_cons.1 isLower
        · rw [freshLevel]
          exact above a isHigher
        · rw [levels (List.mem_append_right _ inLower)]
          exact across a isHigher b inLower
    · refine (wellFormed.sorted isThread₀).imp_of_mem fun member member' lower => ?_
      rw [(kept (wellFormed.openupval isThread₀ member).1).2.2, (kept (wellFormed.openupval isThread₀ member').1).2.2]
      exact lower
  · intro th₁ th₂ t₁ t₂ other isThread₁ isThread₂
    obtain ⟨t₁', before₁, stack₁, size₁, -⟩ := threads isThread₁
    obtain ⟨t₂', before₂, stack₂, size₂, -⟩ := threads isThread₂
    rw [stack₁, stack₂, size₁, size₂]
    exact wellFormed.apart other before₁ before₂
  · rw [rootgc']
    exact wellFormed.nodup
  · intro w
    rw [rootgc', wellFormed.rootgc]
    by_cases self : w = fresh
    · subst self
      simp [unused, freshV]
    · simp [allocated', v', self]

theorem findupval_wellFormed (wellFormed : s.WellFormed) (thread : s.thread th = some t) (slot : t.HasSlot level)
    (unused : s.allocated fresh = false) : (s.findupval th level fresh).2.WellFormed := by
  unfold findupval
  rw [thread]
  simp only
  cases result : s.findLoop level t.openupval with
  | inl p =>
    simp only
    split
    · exact setMarked_wellFormed _ wellFormed
    · exact wellFormed
  | inr parts => exact create_wellFormed wellFormed thread slot unused result

/-! ## Taking an upvalue off the list and the ring -/

/-- An upvalue is taken off the list and the ring, and it is freed or linked into `rootgc`. -/
theorem WellFormed.detach (wellFormed : s.WellFormed) (thread : s.thread th = some t) (member : u ∈ t.openupval)
    (next' : ∀ r, r ≠ .obj u → s'.next r = (s.unlinkupval (.obj u)).next r)
    (prev' : ∀ r, r ≠ .obj u → s'.prev r = (s.unlinkupval (.obj u)).prev r) (v' : ∀ w, w ≠ u → s'.v w = s.v w)
    (allocated' : ∀ w, w ≠ u → s'.allocated w = s.allocated w)
    (thread' : s'.thread = Function.update s.thread th (some { t with openupval := t.openupval.erase u }))
    (ends : s'.allocated u = false ∧ s'.rootgc = s.rootgc ∨
      s'.allocated u = true ∧ s'.v u = .value ∧ s'.rootgc = u :: s.rootgc) : s'.WellFormed := by
  have notOpen : ¬ s'.IsOpen u := by
    obtain ⟨freed, -⟩ | ⟨-, closed, -⟩ := ends
    · exact fun isOpen => nomatch freed.symm.trans isOpen.1
    · exact fun isOpen => isOpen.2 closed
  have isOpen : ∀ w, s'.IsOpen w ↔ w ≠ u ∧ s.IsOpen w := by
    intro w
    by_cases self : w = u
    · subst self
      simp [notOpen]
    · simp [IsOpen, v' w self, allocated' w self, self]
  have level : ∀ w, w ≠ u → s'.level w = s.level w := fun w other => by simp only [State.level, v' w other]
  have openNodup := wellFormed.openNodup thread
  have threads : ∀ {th' t'}, s'.thread th' = some t' → ∃ t₀, s.thread th' = some t₀ ∧ t'.stack = t₀.stack ∧
      t'.stacksize = t₀.stacksize ∧ t'.openupval.Sublist t₀.openupval ∧ u ∉ t'.openupval := by
    intro th' t' isThread
    rw [thread'] at isThread
    by_cases self : th' = th
    · subst self
      rw [Function.update_self] at isThread
      cases isThread
      exact ⟨t, thread, rfl, rfl, List.erase_sublist, fun inList => (openNodup.mem_erase_iff.1 inList).1 rfl⟩
    · rw [Function.update_of_ne self] at isThread
      exact ⟨t', isThread, rfl, rfl, List.Sublist.refl _, fun inList => self (wellFormed.sameThread isThread thread inList member)⟩
  constructor
  · obtain ⟨us, ring, onRing⟩ := wellFormed.ring
    have isNode : .obj u ∈ us.map UvRef.obj := List.mem_map_of_mem ((onRing u).2 (wellFormed.isOpen thread member))
    have injective : Function.Injective UvRef.obj := fun _ _ same => UvRef.obj.inj same
    have unlinked := ring.unlink isNode
    rw [← unlinkupval_next, ← unlinkupval_prev, ← List.map_erase injective] at unlinked
    have nodup : us.Nodup := (List.nodup_cons.1 ring.nodup).2.of_map _
    have others : ∀ r ∈ UvRef.uvhead :: (us.erase u).map .obj, r ≠ .obj u := by
      intro r onRing' same
      obtain isHead | isObj := List.mem_cons.1 (same ▸ onRing')
      · cases isHead
      · obtain ⟨w, inErased, isSame⟩ := List.mem_map.1 isObj
        exact (nodup.mem_erase_iff.1 inErased).1 (injective isSame)
    refine ⟨us.erase u, unlinked.congr (fun r onRing' => next' r (others r onRing')) fun r onRing' => prev' r (others r onRing'),
      fun w => ?_⟩
    rw [nodup.mem_erase_iff, onRing, isOpen]
  · intro th' t' w isThread inList
    obtain ⟨t₀, isThread₀, stack, stacksize, sublist, absent⟩ := threads isThread
    have other : w ≠ u := fun same => absent (same ▸ inList)
    obtain ⟨allocated, p, points, hasSlot⟩ := wellFormed.openupval isThread₀ (sublist.subset inList)
    refine ⟨(allocated' w other).trans allocated, p, (v' w other).trans points, ?_⟩
    unfold Thread.HasSlot
    rw [stack, stacksize]
    exact hasSlot
  · intro w openUpval
    obtain ⟨other, before⟩ := (isOpen w).1 openUpval
    obtain ⟨th', t', isThread, inList⟩ := wellFormed.listed before
    by_cases self : th' = th
    · subst self
      obtain rfl := Option.some.inj (thread.symm.trans isThread)
      exact ⟨th', _, by rw [thread', Function.update_self], openNodup.mem_erase_iff.2 ⟨other, inList⟩⟩
    · exact ⟨th', t', by rw [thread', Function.update_of_ne self, isThread], inList⟩
  · intro th' t' isThread
    obtain ⟨t₀, isThread₀, -, -, sublist, absent⟩ := threads isThread
    refine ((wellFormed.sorted isThread₀).sublist sublist).imp_of_mem fun {a b} inList inList' lower => ?_
    rw [level a fun same => absent (same ▸ inList), level b fun same => absent (same ▸ inList')]
    exact lower
  · intro th₁ th₂ t₁ t₂ other isThread₁ isThread₂
    obtain ⟨t₁', before₁, stack₁, size₁, -⟩ := threads isThread₁
    obtain ⟨t₂', before₂, stack₂, size₂, -⟩ := threads isThread₂
    rw [stack₁, stack₂, size₁, size₂]
    exact wellFormed.apart other before₁ before₂
  · obtain ⟨-, same⟩ | ⟨-, -, linked⟩ := ends
    · rw [same]
      exact wellFormed.nodup
    · rw [linked]
      refine List.nodup_cons.2 ⟨fun inRoot => ?_, wellFormed.nodup⟩
      exact (wellFormed.isOpen thread member).2 (wellFormed.rootgc.1 inRoot).2
  · intro w
    have notClosed : u ∉ s.rootgc := fun inRoot => (wellFormed.isOpen thread member).2 (wellFormed.rootgc.1 inRoot).2
    by_cases self : w = u
    · subst self
      obtain ⟨freed, same⟩ | ⟨allocated, closed, linked⟩ := ends
      · simp [same, notClosed, freed]
      · simp [linked, allocated, closed]
    · have inRoot : w ∈ s'.rootgc ↔ w ∈ s.rootgc := by
        obtain ⟨-, same⟩ | ⟨-, -, linked⟩ := ends
        · rw [same]
        · rw [linked, List.mem_cons, or_iff_right self]
      rw [inRoot, wellFormed.rootgc, allocated' w self, v' w self]

/-- `*pp = p->next`. -/
def offList (s : State N) (th : Nat) (t : Thread) (u : Nat) : State N :=
  s.setThread th { t with openupval := t.openupval.erase u }

theorem freeupval_open {s : State N} (isOpen : s.v u ≠ .value) :
    s.freeupval u = { s.unlinkupval (.obj u) with
      allocated := Function.update (s.unlinkupval (.obj u)).allocated u false } := by
  unfold freeupval
  rw [if_pos isOpen]

/-- The upvalue is freed. -/
theorem freeOpen_wellFormed (wellFormed : s.WellFormed) (thread : s.thread th = some t) (member : u ∈ t.openupval) :
    ((s.offList th t u).freeupval u).WellFormed := by
  have isOpen : (s.offList th t u).v u ≠ .value := (wellFormed.isOpen thread member).2
  have same := unlinkupval_same (s.offList th t u) (.obj u)
  rw [freeupval_open isOpen]
  refine wellFormed.detach thread member (fun r _ => rfl) (fun r _ => rfl) (fun w _ => same.v (.obj w)) (fun w other => ?_) ?_
    (.inl ⟨Function.update_self .., ?_⟩)
  · show Function.update ((s.offList th t u).unlinkupval (.obj u)).allocated u false w = _
    rw [Function.update_of_ne other, same.frame]
    rfl
  · show ((s.offList th t u).unlinkupval (.obj u)).thread = _
    rw [same.frame]
    rfl
  · show ((s.offList th t u).unlinkupval (.obj u)).rootgc = _
    rw [same.frame]
    rfl

/-- The upvalue is as it was; the contents of an open one are its links. -/
structure Untouched (s s' : State N) (w : Nat) : Prop where
  allocated : s'.allocated w = s.allocated w
  v : s'.v w = s.v w
  marked : s'.marked w = s.marked w
  contents : s.allocated w = true → s.v w = .value → (s'.uv (.obj w)).u = (s.uv (.obj w)).u

theorem Untouched.trans {s₁ : State N} (first : Untouched s s₁ w) (second : Untouched s₁ s' w) : Untouched s s' w where
  allocated := second.allocated.trans first.allocated
  v := second.v.trans first.v
  marked := second.marked.trans first.marked
  contents isAllocated closed :=
    (second.contents (first.allocated.trans isAllocated) (first.v.trans closed)).trans (first.contents isAllocated closed)

/-- The upvalue has been freed if it was dead, and otherwise it has its own value. -/
structure Ended (s s' : State N) (u : Nat) : Prop where
  dead : s.isdead u = true → s'.allocated u = false
  kept : s.isdead u = false → s'.allocated u = true ∧ s'.v u = .value ∧ (s'.uv (.obj u)).u = .value (s.upvalValue u)

/-- The neighbours of an upvalue on the ring are on the ring. -/
theorem WellFormed.neighbours (wellFormed : s.WellFormed) (isOpen : s.IsOpen u) :
    s.OnRing (s.next (.obj u)) ∧ s.OnRing (s.prev (.obj u)) := by
  obtain ⟨us, ring, onRing⟩ := wellFormed.ring
  have isNode : .obj u ∈ us.map UvRef.obj := List.mem_map_of_mem ((onRing u).2 isOpen)
  have onRing' : ∀ r ∈ UvRef.uvhead :: us.map .obj, s.OnRing r := by
    intro r member
    obtain rfl | isObj := List.mem_cons.1 member
    · exact .inl rfl
    · obtain ⟨w, onList, rfl⟩ := List.mem_map.1 isObj
      exact .inr ⟨w, rfl, (onRing w).1 onList⟩
  exact ⟨onRing' _ (ring.next_mem isNode), onRing' _ (ring.prev_mem isNode)⟩

theorem OnRing.not_closed {r : UvRef} (onRing : s.OnRing r) (closed : s.v w = .value) : r ≠ .obj w := by
  rintro rfl
  obtain isHead | ⟨x, same, isOpen⟩ := onRing
  · cases isHead
  · cases same
    exact isOpen.2 closed

theorem linkupval_frame (s : State N) (u : Nat) :
    s.linkupval u = { s with rootgc := u :: s.rootgc, uv := (s.linkupval u).uv } ∧
    (∀ r, ((s.linkupval u).uv r).v = (s.uv r).v ∧ ((s.linkupval u).uv r).u = (s.uv r).u) ∧
    ∀ w, w ≠ u → (s.linkupval u).marked w = s.marked w := by
  have marks : ∀ c, (∀ r, (((({ s with rootgc := u :: s.rootgc } : State N).setMarked u c).uv r).v = (s.uv r).v) ∧
      ((({ s with rootgc := u :: s.rootgc } : State N).setMarked u c).uv r).u = (s.uv r).u) ∧
      ∀ w, w ≠ u → (({ s with rootgc := u :: s.rootgc } : State N).setMarked u c).marked w = s.marked w := by
    intro c
    refine ⟨fun r => ?_, fun w other => ?_⟩
    · by_cases self : r = .obj u
      · subst self
        simp [setMarked]
      · simp [setMarked, self]
    · simp [setMarked, marked, other]
  unfold linkupval
  simp only
  split
  · split
    · exact ⟨rfl, marks _⟩
    · exact ⟨rfl, marks _⟩
  · exact ⟨rfl, fun r => ⟨rfl, rfl⟩, fun w _ => rfl⟩

/-- The upvalue is freed, or it is given the value of its slot. -/
theorem closeupval_result (wellFormed : s.WellFormed) (thread : s.thread th = some t) (member : u ∈ t.openupval) :
    let s' := (s.offList th t u).closeupval u
    s'.WellFormed ∧ s'.thread = Function.update s.thread th (some { t with openupval := t.openupval.erase u }) ∧
    s'.mem = s.mem ∧ s'.currentwhite = s.currentwhite ∧ (∀ w, w ≠ u → Untouched s s' w) ∧ Ended s s' u := by
  intro s'
  have isOpen := wellFormed.isOpen thread member
  obtain ⟨allocated, p, points, -⟩ := wellFormed.openupval thread member
  generalize start : s.offList th t u = s₁
  have frame₁ : s₁ = { s with thread := s₁.thread } := by rw [← start]; rfl
  have thread₁ : s₁.thread = Function.update s.thread th (some { t with openupval := t.openupval.erase u }) := by
    rw [← start]; rfl
  have isOpen₁ : s₁.v u ≠ .value := by rw [← start]; exact isOpen.2
  have same := unlinkupval_same s₁ (.obj u)
  have contents : ∀ {w}, s.v w = .value → ((s₁.unlinkupval (.obj u)).uv (.obj w)).u = (s.uv (.obj w)).u := by
    intro w closed
    obtain ⟨next, prev⟩ := wellFormed.neighbours isOpen
    rw [← start]
    exact unlinkupval_u (s.offList th t u) (next.not_closed closed).symm (prev.not_closed closed).symm
  have v₁ : ∀ w, (s₁.unlinkupval (.obj u)).v w = s.v w := fun w => by rw [← start]; exact (start ▸ same).v (.obj w)
  have marked₁ : ∀ w, (s₁.unlinkupval (.obj u)).marked w = s.marked w := fun w => by
    rw [← start]; exact (start ▸ same).marked (.obj w)
  have dead₁ : s₁.isdead u = s.isdead u := by rw [← start]; rfl
  have frame : s₁.unlinkupval (.obj u) = { s₁ with uv := (s₁.unlinkupval (.obj u)).uv } := same.frame
  have isResult : s' = s₁.closeupval u := by rw [← start]
  by_cases dead : s.isdead u = true
  · have result : s' = s₁.freeupval u := by
      rw [isResult, closeupval, if_pos (dead₁.trans dead)]
    have freed := freeOpen_wellFormed wellFormed thread member
    rw [start, ← result] at freed
    rw [freeupval_open isOpen₁] at result
    refine ⟨freed, ?_, ?_, ?_, fun w other => ⟨?_, ?_, ?_, fun _ closed => ?_⟩, fun _ => ?_, fun notDead => ?_⟩
    · rw [result, frame]
      exact thread₁
    · rw [result, frame, frame₁]
    · rw [result, frame, frame₁]
    · rw [result]
      show Function.update (s₁.unlinkupval (.obj u)).allocated u false w = _
      rw [Function.update_of_ne other, frame, frame₁]
    · rw [result]
      exact v₁ w
    · rw [result]
      exact marked₁ w
    · rw [result]
      exact contents closed
    · rw [result]
      exact Function.update_self ..
    · rw [dead] at notDead
      cases notDead
  · have notDead : s.isdead u = false := by simpa using dead
    generalize unlinked : s₁.unlinkupval (.obj u) = s₂ at *
    have value : s₂.upvalValue u = s.upvalValue u := by
      have mem : s₂.mem = s.mem := by rw [frame, frame₁]
      simp only [upvalValue, v₁, points, mem]
    generalize closedState : s₂.setUv (.obj u) { s₂.uv (.obj u) with u := .value (s₂.upvalValue u), v := .value } = s₃
    have result : s' = s₃.linkupval u := by
      rw [isResult, closeupval, if_neg (by rw [dead₁, notDead]; nofun), ← closedState, ← unlinked]
    obtain ⟨linked, uvs, marks⟩ := linkupval_frame s₃ u
    rw [← result] at linked uvs marks
    have frame₃ : s₃ = { s₂ with uv := s₃.uv } := by rw [← closedState]; rfl
    have uv₃ : s₃.uv = Function.update s₂.uv (.obj u) { s₂.uv (.obj u) with u := .value (s₂.upvalValue u), v := .value } := by
      rw [← closedState]; rfl
    have others : ∀ r, r ≠ .obj u → s₃.uv r = s₂.uv r := fun r other => by rw [uv₃, Function.update_of_ne other]
    have otherObj : ∀ {w}, w ≠ u → UvRef.obj w ≠ .obj u := fun other same => other (UvRef.obj.inj same)
    have allocated' : s'.allocated = s.allocated := by rw [linked, frame₃, frame, frame₁]
    have thread' : s'.thread = s₁.thread := by rw [linked, frame₃, frame]
    have closed : s'.v u = .value := by
      show (s'.uv (.obj u)).v = _
      rw [(uvs _).1, uv₃, Function.update_self]
    have v' : ∀ w, w ≠ u → s'.v w = s.v w := fun w other => by
      show (s'.uv (.obj w)).v = _
      rw [(uvs _).1, others _ (otherObj other)]
      exact v₁ w
    refine ⟨wellFormed.detach thread member (fun r other => ?_) (fun r other => ?_) v' (fun w _ => by rw [allocated'])
      (by rw [thread', thread₁]) (.inr ⟨by rw [allocated', allocated], closed, ?_⟩), by rw [thread', thread₁], ?_, ?_,
      fun w other => ⟨by rw [allocated'], v' w other, ?_, fun _ isClosed => ?_⟩, fun isDead => ?_, fun _ => ⟨?_, closed, ?_⟩⟩
    · have unlinkedNext : s₂.next r = (s.unlinkupval (.obj u)).next r := by
        rw [← unlinked, unlinkupval_next, unlinkupval_next, ← start]
        rfl
      rw [← unlinkedNext]
      simp only [next, (uvs r).2, others r other]
    · have unlinkedPrev : s₂.prev r = (s.unlinkupval (.obj u)).prev r := by
        rw [← unlinked, unlinkupval_prev, unlinkupval_prev, ← start]
        rfl
      rw [← unlinkedPrev]
      simp only [prev, (uvs r).2, others r other]
    · rw [linked, frame₃, frame, frame₁]
    · rw [linked, frame₃, frame, frame₁]
    · rw [linked, frame₃, frame, frame₁]
    · rw [marks w other]
      show (s₃.uv (.obj w)).marked = _
      rw [others _ (otherObj other)]
      exact marked₁ w
    · rw [(uvs _).2, others _ (otherObj other)]
      exact contents isClosed
    · rw [notDead] at isDead
      cases isDead
    · rw [allocated', allocated]
    · rw [(uvs _).2, uv₃, Function.update_self, ← value]

/-! ## `gafqF_close` -/

theorem Untouched.sameLevel (untouched : Untouched s s' w) : s'.level w = s.level w := by
  simp only [State.level, untouched.v]

theorem Untouched.isdead (untouched : Untouched s s' w) (currentwhite : s'.currentwhite = s.currentwhite) :
    s'.isdead w = s.isdead w := by
  simp only [State.isdead, untouched.marked, currentwhite]

/-- What is closed later has not been touched before. -/
theorem Ended.after {s₁ : State N} (ended : Ended s₁ s' w) (untouched : Untouched s s₁ w) (mem : s₁.mem = s.mem)
    (currentwhite : s₁.currentwhite = s.currentwhite) (isOpen : s.v w ≠ .value) : Ended s s' w := by
  have dead := untouched.isdead currentwhite
  have value : s₁.upvalValue w = s.upvalValue w := by
    cases points : s.v w with
    | stack p => simp only [upvalValue, untouched.v, points, mem]
    | value => exact absurd points isOpen
  exact ⟨fun isDead => ended.dead (dead.trans isDead), fun notDead => value ▸ ended.kept (dead.trans notDead)⟩

/-- What has been closed is not touched later. -/
theorem Ended.then {s₁ : State N} (ended : Ended s s₁ w) (untouched : Untouched s₁ s' w) : Ended s s' w where
  dead isDead := untouched.allocated.trans (ended.dead isDead)
  kept notDead :=
    have ⟨allocated, closed, contents⟩ := ended.kept notDead
    ⟨untouched.allocated.trans allocated, untouched.v.trans closed, (untouched.contents allocated closed).trans contents⟩

structure Closed (s s' : State N) (th level : Nat) (t : Thread) : Prop where
  wellFormed : s'.WellFormed
  thread : s'.thread = Function.update s.thread th (some { t with openupval := t.openupval.filter (s.level · < level) })
  mem : s'.mem = s.mem
  currentwhite : s'.currentwhite = s.currentwhite
  untouched : ∀ w, (w ∈ t.openupval → s.level w < level) → Untouched s s' w
  ended : ∀ w ∈ t.openupval, level ≤ s.level w → Ended s s' w

/-- The upvalues at or above `level` come first in the list. -/
theorem closeLoop_closed (us : List Nat) : ∀ {s : State N} {t : Thread}, s.WellFormed → s.thread th = some t →
    t.openupval = us → Closed s (s.closeLoop th level us) th level t := by
  induction us with
  | nil =>
    intro s t wellFormed thread list
    refine ⟨wellFormed, ?_, rfl, rfl, fun w _ => ⟨rfl, rfl, rfl, fun _ _ => rfl⟩, fun w member => ?_⟩
    · have kept : t.openupval.filter (s.level · < level) = t.openupval := by rw [list, List.filter_nil]
      rw [kept, ← thread, Function.update_eq_self]
      rfl
    · rw [list] at member
      cases member
  | cons u rest inductionHypothesis =>
    intro s t wellFormed thread list
    have isFirst : u ∈ t.openupval := list ▸ List.mem_cons_self
    have sorted := wellFormed.sorted thread
    have nodup := wellFormed.openNodup thread
    rw [list] at sorted nodup
    obtain ⟨below, -⟩ := List.pairwise_cons.1 sorted
    unfold closeLoop
    split
    · next atOrAbove =>
      rw [thread]
      simp only
      have erased : t.openupval.erase u = rest := by rw [list, List.erase_cons_head]
      obtain ⟨wellFormed₁, thread₁, mem₁, white₁, untouched₁, ended₁⟩ := closeupval_result wellFormed thread isFirst
      have offList : s.setThread th { t with openupval := rest } = s.offList th t u := by rw [State.offList, erased]
      rw [offList]
      rw [erased] at thread₁
      generalize (s.offList th t u).closeupval u = s₁ at *
      have isThread₁ : s₁.thread th = some { t with openupval := rest } := by rw [thread₁, Function.update_self]
      have result := inductionHypothesis wellFormed₁ isThread₁ rfl
      generalize s₁.closeLoop th level rest = s' at result
      have inRest : ∀ {w}, w ∈ rest → w ≠ u := fun member same => (List.nodup_cons.1 nodup).1 (same ▸ member)
      have levels : ∀ {w}, w ∈ rest → s₁.level w = s.level w := fun member => (untouched₁ _ (inRest member)).sameLevel
      refine ⟨result.wellFormed, ?_, result.mem.trans mem₁, result.currentwhite.trans white₁, fun w outside => ?_,
        fun w member above => ?_⟩
      · rw [result.thread, thread₁, Function.update_idem, list, List.filter_cons_of_neg (by simpa using atOrAbove)]
        rw [List.filter_congr fun w member => by rw [levels member]]
      · have other : w ≠ u := by
          rintro rfl
          have lower := outside isFirst
          omega
        refine (untouched₁ w other).trans (result.untouched w fun member => ?_)
        rw [levels member]
        exact outside (list ▸ List.mem_cons_of_mem u member)
      · rw [list] at member
        obtain rfl | later := List.mem_cons.1 member
        · exact ended₁.then (result.untouched w fun inRest' => absurd rfl (inRest inRest'))
        · refine (result.ended w later ?_).after (untouched₁ w (inRest later)) mem₁ white₁ ?_
          · rw [levels later]
            exact above
          · exact (wellFormed.isOpen thread (list ▸ List.mem_cons_of_mem u later)).2
    · next notAbove =>
      have allBelow : ∀ w ∈ t.openupval, s.level w < level := by
        intro w member
        rw [list] at member
        obtain rfl | later := List.mem_cons.1 member
        · omega
        · have lower := below w later
          omega
      refine ⟨wellFormed, ?_, rfl, rfl, fun w _ => ⟨rfl, rfl, rfl, fun _ _ => rfl⟩, fun w member above => ?_⟩
      · have kept : t.openupval.filter (s.level · < level) = t.openupval :=
          List.filter_eq_self.2 fun w member => decide_eq_true (allBelow w member)
        rw [kept, ← thread, Function.update_eq_self]
      · have lower := allBelow w member
        omega

theorem close_closed (wellFormed : s.WellFormed) (thread : s.thread th = some t) (level : Nat) :
    Closed s (s.close th level) th level t := by
  unfold close
  rw [thread]
  exact closeLoop_closed _ wellFormed thread rfl

theorem close_wellFormed (wellFormed : s.WellFormed) (th level : Nat) : (s.close th level).WellFormed := by
  cases thread : s.thread th with
  | none =>
    unfold close
    rw [thread]
    exact wellFormed
  | some t => exact (close_closed wellFormed thread level).wellFormed

/-! ## The sweep -/

theorem sweepOpen_wellFormed (us : List Nat) : ∀ {s : State N} {t : Thread}, s.WellFormed → s.thread th = some t →
    us.Nodup → (∀ u ∈ us, u ∈ t.openupval) → (s.sweepOpen th us).WellFormed := by
  induction us with
  | nil => exact fun wellFormed _ _ _ => wellFormed
  | cons u rest inductionHypothesis =>
    intro s t wellFormed thread nodup members
    have isMember : u ∈ t.openupval := members u List.mem_cons_self
    obtain ⟨notInRest, nodup'⟩ := List.nodup_cons.1 nodup
    unfold sweepOpen
    split
    · rw [thread]
      simp only
      have freed := freeOpen_wellFormed wellFormed thread isMember
      have thread' : ((s.offList th t u).freeupval u).thread th = some { t with openupval := t.openupval.erase u } := by
        have isOpen : (s.offList th t u).v u ≠ .value := (wellFormed.isOpen thread isMember).2
        rw [freeupval_open isOpen]
        show ((s.offList th t u).unlinkupval (.obj u)).thread th = _
        rw [(unlinkupval_same _ _).frame]
        exact Function.update_self ..
      refine inductionHypothesis freed thread' nodup' fun w later => ?_
      have other : w ≠ u := fun same => notInRest (same ▸ later)
      exact (List.mem_erase_of_ne other).2 (members w (List.mem_cons_of_mem u later))
    · exact inductionHypothesis (setMarked_wellFormed _ wellFormed) thread nodup' fun w later =>
        members w (List.mem_cons_of_mem u later)

theorem sweepopenupval_wellFormed (th : Nat) (wellFormed : s.WellFormed) : (s.sweepopenupval th).WellFormed := by
  unfold sweepopenupval
  split
  · next thread => exact sweepOpen_wellFormed _ wellFormed thread (wellFormed.openNodup thread) fun _ => id
  · exact wellFormed

/-- An upvalue that is closed is freed. -/
theorem freeClosed_wellFormed (wellFormed : s.WellFormed) (inRoot : u ∈ s.rootgc) :
    (({ s with rootgc := s.rootgc.erase u } : State N).freeupval u).WellFormed := by
  obtain ⟨-, closed⟩ := wellFormed.rootgc.1 inRoot
  have freed : ({ s with rootgc := s.rootgc.erase u } : State N).freeupval u =
      { s with rootgc := s.rootgc.erase u, allocated := Function.update s.allocated u false } := by
    have isClosed : ¬ ({ s with rootgc := s.rootgc.erase u } : State N).v u ≠ .value := fun isOpen => isOpen closed
    unfold freeupval
    rw [if_neg isClosed]
  rw [freed]
  have isOpen : ∀ w, ({ s with rootgc := s.rootgc.erase u, allocated := Function.update s.allocated u false } :
      State N).IsOpen w ↔ s.IsOpen w := by
    intro w
    by_cases self : w = u
    · subst self
      have isClosed : ({ s with rootgc := s.rootgc.erase w, allocated := Function.update s.allocated w false } :
        State N).v w = .value := closed
      simp [IsOpen, closed, isClosed]
    · simp [IsOpen, self, v]
  constructor
  · obtain ⟨us, ring, onRing⟩ := wellFormed.ring
    exact ⟨us, ring, fun w => (onRing w).trans (isOpen w).symm⟩
  · intro th t w isThread member
    obtain ⟨allocated, p, points, hasSlot⟩ := wellFormed.openupval isThread member
    have other : w ≠ u := by
      rintro rfl
      rw [closed] at points
      cases points
    exact ⟨(Function.update_of_ne other ..).trans allocated, p, points, hasSlot⟩
  · exact fun isOpen' => wellFormed.listed ((isOpen _).1 isOpen')
  · exact wellFormed.sorted
  · exact wellFormed.apart
  · exact wellFormed.nodup.erase u
  · intro w
    by_cases self : w = u
    · subst self
      simp [wellFormed.nodup.mem_erase_iff]
    · show w ∈ s.rootgc.erase u ↔ Function.update s.allocated u false w = true ∧ s.v w = .value
      rw [wellFormed.nodup.mem_erase_iff, Function.update_of_ne self, and_iff_right self]
      exact wellFormed.rootgc

theorem sweepRoot_wellFormed (us : List Nat) : ∀ {s : State N}, s.WellFormed → us.Nodup → (∀ u ∈ us, u ∈ s.rootgc) →
    (s.sweepRoot us).WellFormed := by
  induction us with
  | nil => exact fun wellFormed _ _ => wellFormed
  | cons u rest inductionHypothesis =>
    intro s wellFormed nodup members
    have isMember : u ∈ s.rootgc := members u List.mem_cons_self
    obtain ⟨notInRest, nodup'⟩ := List.nodup_cons.1 nodup
    unfold sweepRoot
    split
    · refine inductionHypothesis (freeClosed_wellFormed wellFormed isMember) nodup' fun w later => ?_
      have closed : ¬ ({ s with rootgc := s.rootgc.erase u } : State N).v u ≠ .value := fun isOpen =>
        isOpen (wellFormed.rootgc.1 isMember).2
      have other : w ≠ u := fun same => notInRest (same ▸ later)
      unfold freeupval
      rw [if_neg closed]
      exact (List.mem_erase_of_ne other).2 (members w (List.mem_cons_of_mem u later))
    · exact inductionHypothesis (setMarked_wellFormed _ wellFormed) nodup' fun w later =>
        members w (List.mem_cons_of_mem u later)

theorem sweeproot_wellFormed (sweepgc count : Nat) (wellFormed : s.WellFormed) : (s.sweeproot sweepgc count).WellFormed := by
  have sublist : ((s.rootgc.drop sweepgc).take count).Sublist s.rootgc :=
    (List.take_sublist _ _).trans (List.drop_sublist _ _)
  exact sweepRoot_wellFormed _ wellFormed (wellFormed.nodup.sublist sublist) fun _ member => sublist.subset member

theorem newupval_wellFormed (wellFormed : s.WellFormed) (unused : s.allocated fresh = false) :
    (s.newupval fresh).WellFormed := by
  have notFresh : ∀ {w}, s.allocated w = true → w ≠ fresh := by
    rintro w allocated rfl
    rw [unused] at allocated
    cases allocated
  have others : ∀ r, r ≠ .obj fresh → (s.newupval fresh).uv r = s.uv r := fun r other => Function.update_of_ne other ..
  have v' : ∀ w, w ≠ fresh → (s.newupval fresh).v w = s.v w := fun w other => by
    have other' : UvRef.obj w ≠ .obj fresh := fun same => other (UvRef.obj.inj same)
    simp only [v, others _ other']
  have allocated' : ∀ w, w ≠ fresh → (s.newupval fresh).allocated w = s.allocated w := fun w other =>
    Function.update_of_ne other ..
  have freshV : (s.newupval fresh).v fresh = .value := by simp [newupval, alloc, v]
  have isOpen : ∀ w, (s.newupval fresh).IsOpen w ↔ s.IsOpen w := by
    intro w
    by_cases self : w = fresh
    · subst self
      simp [IsOpen, freshV, unused]
    · simp [IsOpen, v' w self, allocated' w self]
  have level' : ∀ {w}, s.allocated w = true → (s.newupval fresh).level w = s.level w := fun allocated => by
    simp only [State.level, v' _ (notFresh allocated)]
  constructor
  · obtain ⟨us, ring, onRing⟩ := wellFormed.ring
    have apart : ∀ r ∈ UvRef.uvhead :: us.map .obj, (s.newupval fresh).uv r = s.uv r := by
      intro r member
      refine others r fun same => ?_
      obtain isHead | isObj := List.mem_cons.1 member
      · cases isHead.symm.trans same
      · obtain ⟨w, onList, isSame⟩ := List.mem_map.1 isObj
        cases isSame.trans same
        exact notFresh ((onRing _).1 onList).1 rfl
    refine ⟨us, ring.congr (fun r member => ?_) (fun r member => ?_), fun w => (onRing w).trans (isOpen w).symm⟩
    · simp only [next, apart r member]
    · simp only [prev, apart r member]
  · intro th t w isThread member
    obtain ⟨allocated, p, points, hasSlot⟩ := wellFormed.openupval isThread member
    have other := notFresh allocated
    exact ⟨(allocated' w other).trans allocated, p, (v' w other).trans points, hasSlot⟩
  · exact fun isOpen' => wellFormed.listed ((isOpen _).1 isOpen')
  · intro th t isThread
    refine (wellFormed.sorted isThread).imp_of_mem fun member member' lower => ?_
    rw [level' (wellFormed.openupval isThread member).1, level' (wellFormed.openupval isThread member').1]
    exact lower
  · exact wellFormed.apart
  · exact List.nodup_cons.2 ⟨fun inRoot => notFresh (wellFormed.rootgc.1 inRoot).1 rfl, wellFormed.nodup⟩
  · intro w
    show w ∈ fresh :: s.rootgc ↔ _
    rw [List.mem_cons, wellFormed.rootgc]
    by_cases self : w = fresh
    · subst self
      simp [newupval, alloc, v]
    · simp [self, allocated' w self, v' w self]

/-! ## Moving a stack -/

theorem correctupval_v (oldstack stack : Nat) (s : State N) (u w : Nat) : (correctupval oldstack stack s u).v w =
    if w = u then .stack (corrected oldstack stack (s.level u)) else s.v w := by
  by_cases self : w = u
  · subst self
    simp [correctupval, v]
  · simp [correctupval, v, self]

theorem correctupval_u (oldstack stack : Nat) (s : State N) (u : Nat) (r : UvRef) :
    ((correctupval oldstack stack s u).uv r).u = (s.uv r).u := by
  by_cases self : r = .obj u
  · subst self
    simp [correctupval]
  · simp [correctupval, self]

theorem correctupvals_result (oldstack stack : Nat) (us : List Nat) : ∀ s : State N, us.Nodup →
    us.foldl (correctupval oldstack stack) s = { s with uv := (us.foldl (correctupval oldstack stack) s).uv } ∧
    (∀ r, ((us.foldl (correctupval oldstack stack) s).uv r).u = (s.uv r).u) ∧
    ∀ w, (us.foldl (correctupval oldstack stack) s).v w =
      if w ∈ us then .stack (corrected oldstack stack (s.level w)) else s.v w := by
  induction us with
  | nil => exact fun s _ => ⟨rfl, fun _ => rfl, fun _ => rfl⟩
  | cons u rest inductionHypothesis =>
    intro s nodup
    obtain ⟨notInRest, nodup'⟩ := List.nodup_cons.1 nodup
    obtain ⟨frame, contents, points⟩ := inductionHypothesis (correctupval oldstack stack s u) nodup'
    rw [List.foldl_cons]
    refine ⟨frame, fun r => (contents r).trans (correctupval_u oldstack stack s u r), fun w => ?_⟩
    rw [points]
    by_cases self : w = u
    · subst self
      rw [if_neg notInRest, if_pos List.mem_cons_self, correctupval_v, if_pos rfl]
    · have level : (correctupval oldstack stack s u).level w = s.level w := by
        simp only [State.level, correctupval_v, if_neg self]
      simp only [List.mem_cons, self, false_or, level, correctupval_v, if_false]

theorem reallocstack_wellFormed {newsize stack : Nat} (wellFormed : s.WellFormed) (thread : s.thread th = some t)
    (kept : ∀ u ∈ t.openupval, s.level u < t.stack + (newsize + 1 + extraStack))
    (free : s.FreeArray th stack (newsize + 1 + extraStack)) : (s.reallocstack th newsize stack).WellFormed := by
  have nodup := wellFormed.openNodup thread
  obtain ⟨frame, contents, points⟩ := correctupvals_result t.stack stack t.openupval
    (s.reallocvector t.stack t.stacksize stack (newsize + 1 + extraStack)) nodup
  generalize moved : t.openupval.foldl (correctupval t.stack stack)
    (s.reallocvector t.stack t.stacksize stack (newsize + 1 + extraStack)) = s₁ at frame contents points
  obtain ⟨t', thread', stack', stacksize', openupval'⟩ : ∃ t', s.reallocstack th newsize stack = s₁.setThread th t' ∧
      t'.stack = stack ∧ t'.stacksize = newsize + 1 + extraStack ∧ t'.openupval = t.openupval := by
    unfold reallocstack
    rw [thread]
    simp only [correctstack, moved]
    exact ⟨_, rfl, rfl, rfl, rfl⟩
  rw [thread']
  have allocated : (s₁.setThread th t').allocated = s.allocated := by
    show s₁.allocated = _
    rw [frame]
    rfl
  have rootgc : (s₁.setThread th t').rootgc = s.rootgc := by
    show s₁.rootgc = _
    rw [frame]
    rfl
  have threads : (s₁.setThread th t').thread = Function.update s.thread th (some t') := by
    show Function.update s₁.thread th (some t') = _
    rw [frame]
    rfl
  have v' : ∀ w, (s₁.setThread th t').v w =
      if w ∈ t.openupval then .stack (corrected t.stack stack (s.level w)) else s.v w := points
  have closed : ∀ w, (s₁.setThread th t').v w = .value ↔ s.v w = .value := by
    intro w
    rw [v']
    split
    · next member =>
      obtain ⟨-, p, isStack, -⟩ := wellFormed.openupval thread member
      simp [isStack]
    · exact Iff.rfl
  have isOpen : ∀ w, (s₁.setThread th t').IsOpen w ↔ s.IsOpen w := fun w => by
    simp only [IsOpen, allocated, ne_eq, closed]
  have levels : ∀ w, w ∈ t.openupval → (s₁.setThread th t').level w = s.level w - t.stack + stack := by
    intro w member
    simp only [State.level, v', if_pos member]
    rfl
  have inside : ∀ w, w ∈ t.openupval → t.stack ≤ s.level w := by
    intro w member
    obtain ⟨-, p, isStack, low, -⟩ := wellFormed.openupval thread member
    simpa only [State.level, isStack] using low
  have otherLists : ∀ {th' t₁ w}, th' ≠ th → s.thread th' = some t₁ → w ∈ t₁.openupval → w ∉ t.openupval :=
    fun other isThread member member' => other (wellFormed.sameThread isThread thread member member')
  constructor
  · obtain ⟨us, ring, onRing⟩ := wellFormed.ring
    refine ⟨us, ring.congr (fun r _ => ?_) (fun r _ => ?_), fun w => (onRing w).trans (isOpen w).symm⟩
    · show (s₁.uv r).u.next = _
      rw [contents]
      rfl
    · show (s₁.uv r).u.prev = _
      rw [contents]
      rfl
  · intro th' t₁ w isThread member
    rw [threads] at isThread
    rw [allocated]
    by_cases self : th' = th
    · subst self
      rw [Function.update_self] at isThread
      cases isThread
      rw [openupval'] at member
      have low := inside w member
      have high := kept w member
      refine ⟨(wellFormed.openupval thread member).1, corrected t.stack stack (s.level w), by rw [v', if_pos member], ?_⟩
      unfold Thread.HasSlot corrected
      rw [stack', stacksize']
      omega
    · rw [Function.update_of_ne self] at isThread
      obtain ⟨isAllocated, p, isStack, hasSlot⟩ := wellFormed.openupval isThread member
      exact ⟨isAllocated, p, by rw [v', if_neg (otherLists self isThread member), isStack], hasSlot⟩
  · intro w isOpen'
    obtain ⟨th', t₁, isThread, member⟩ := wellFormed.listed ((isOpen w).1 isOpen')
    rw [threads]
    by_cases self : th' = th
    · subst self
      obtain rfl := Option.some.inj (thread.symm.trans isThread)
      exact ⟨th', t', Function.update_self .., openupval' ▸ member⟩
    · exact ⟨th', t₁, (Function.update_of_ne self ..).trans isThread, member⟩
  · intro th' t₁ isThread
    rw [threads] at isThread
    by_cases self : th' = th
    · subst self
      rw [Function.update_self] at isThread
      cases isThread
      rw [openupval']
      refine (wellFormed.sorted thread).imp_of_mem fun {a b} member member' lower => ?_
      have low := inside b member'
      rw [levels a member, levels b member']
      omega
    · rw [Function.update_of_ne self] at isThread
      refine (wellFormed.sorted isThread).imp_of_mem fun {a b} member member' lower => ?_
      simp only [State.level, v', if_neg (otherLists self isThread member), if_neg (otherLists self isThread member')]
      exact lower
  · intro th₁ th₂ t₁ t₂ other isThread₁ isThread₂
    rw [threads] at isThread₁ isThread₂
    by_cases self₁ : th₁ = th
    · subst self₁
      rw [Function.update_of_ne other.symm] at isThread₂
      rw [Function.update_self] at isThread₁
      cases isThread₁
      rw [stack', stacksize']
      exact (free th₂ t₂ other.symm isThread₂).symm
    · rw [Function.update_of_ne self₁] at isThread₁
      by_cases self₂ : th₂ = th
      · subst self₂
        rw [Function.update_self] at isThread₂
        cases isThread₂
        rw [stack', stacksize']
        exact free th₁ t₁ self₁ isThread₁
      · rw [Function.update_of_ne self₂] at isThread₂
        exact wellFormed.apart other isThread₁ isThread₂
  · rw [rootgc]
    exact wellFormed.nodup
  · intro w
    rw [rootgc, allocated, closed]
    exact wellFormed.rootgc

/-! ## Threads -/

theorem stackInit_wellFormed {stack : Nat} (wellFormed : s.WellFormed) (absent : s.thread th = none)
    (free : s.FreeArray th stack (basicStackSize + extraStack)) : (s.stackInit th stack).WellFormed := by
  obtain ⟨t', result, stack', stacksize', openupval'⟩ : ∃ t', s.stackInit th stack = (s.setSlot stack .nil).setThread th t' ∧
      t'.stack = stack ∧ t'.stacksize = basicStackSize + extraStack ∧ t'.openupval = [] := ⟨_, rfl, rfl, rfl, rfl⟩
  rw [result]
  have before : ∀ {th' t₁}, ((s.setSlot stack .nil).setThread th t').thread th' = some t₁ →
      th' = th ∧ t₁ = t' ∨ th' ≠ th ∧ s.thread th' = some t₁ := by
    intro th' t₁ isThread
    have isUpdated : Function.update s.thread th (some t') th' = some t₁ := isThread
    by_cases self : th' = th
    · subst self
      rw [Function.update_self] at isUpdated
      exact .inl ⟨rfl, (Option.some.inj isUpdated).symm⟩
    · rw [Function.update_of_ne self] at isUpdated
      exact .inr ⟨self, isUpdated⟩
  constructor
  · exact wellFormed.ring
  · intro th' t₁ u isThread member
    obtain ⟨rfl, rfl⟩ | ⟨-, isThread'⟩ := before isThread
    · rw [openupval'] at member
      cases member
    · exact wellFormed.openupval isThread' member
  · intro u isOpen
    obtain ⟨th', t₁, isThread, member⟩ := wellFormed.listed isOpen
    have other : th' ≠ th := by
      rintro rfl
      cases absent.symm.trans isThread
    exact ⟨th', t₁, (Function.update_of_ne other ..).trans isThread, member⟩
  · intro th' t₁ isThread
    obtain ⟨rfl, rfl⟩ | ⟨-, isThread'⟩ := before isThread
    · rw [openupval']
      exact .nil
    · exact wellFormed.sorted isThread'
  · intro th₁ th₂ t₁ t₂ other isThread₁ isThread₂
    obtain ⟨rfl, rfl⟩ | ⟨other₁, isThread₁'⟩ := before isThread₁
    · obtain ⟨rfl, -⟩ | ⟨other₂, isThread₂'⟩ := before isThread₂
      · exact absurd rfl other
      · rw [stack', stacksize']
        exact (free th₂ t₂ other₂ isThread₂').symm
    · obtain ⟨rfl, rfl⟩ | ⟨-, isThread₂'⟩ := before isThread₂
      · rw [stack', stacksize']
        exact free th₁ t₁ other₁ isThread₁'
      · exact wellFormed.apart other isThread₁' isThread₂'
  · exact wellFormed.nodup
  · exact wellFormed.rootgc

theorem freethread_wellFormed (th : Nat) (wellFormed : s.WellFormed) : (s.freethread th).WellFormed := by
  unfold freethread
  cases thread : s.thread th with
  | none => exact wellFormed
  | some t =>
    have closed := close_closed wellFormed thread t.stack
    -- all its upvalues have been closed
    have empty : t.openupval.filter (s.level · < t.stack) = [] := by
      refine List.filter_eq_nil_iff.2 fun u member => ?_
      obtain ⟨-, p, points, low, -⟩ := wellFormed.openupval thread member
      simpa [State.level, points] using low
    have thread' := closed.thread
    rw [empty] at thread'
    have wellFormed' := closed.wellFormed
    simp only
    generalize s.close th t.stack = s₁ at thread' wellFormed'
    have before : ∀ {th' t₁}, Function.update s₁.thread th none th' = some t₁ → th' ≠ th ∧ s₁.thread th' = some t₁ := by
      intro th' t₁ isThread
      by_cases self : th' = th
      · subst self
        rw [Function.update_self] at isThread
        cases isThread
      · rw [Function.update_of_ne self] at isThread
        exact ⟨self, isThread⟩
    constructor
    · exact wellFormed'.ring
    · exact fun isThread member => wellFormed'.openupval (before isThread).2 member
    · intro u isOpen
      obtain ⟨th', t₁, isThread, member⟩ := wellFormed'.listed isOpen
      have other : th' ≠ th := by
        rintro rfl
        rw [thread', Function.update_self] at isThread
        cases isThread
        cases member
      exact ⟨th', t₁, (Function.update_of_ne other ..).trans isThread, member⟩
    · exact fun isThread => wellFormed'.sorted (before isThread).2
    · exact fun other isThread isThread' => wellFormed'.apart other (before isThread).2 (before isThread').2
    · exact wellFormed'.nodup
    · exact wellFormed'.rootgc

/-! ## Runs -/

theorem Step.wellFormed (step : Step s s') (wellFormed : s.WellFormed) : s'.WellFormed := by
  cases step with
  | findupval thread slot unused => exact findupval_wellFormed wellFormed thread slot unused
  | close th level => exact close_wellFormed wellFormed th level
  | setSlot x thread slot => exact setSlot_wellFormed _ x wellFormed
  | setUpvalValue x allocated => exact setUpvalValue_wellFormed x wellFormed
  | reallocstack thread kept free => exact reallocstack_wellFormed wellFormed thread kept free
  | sweepopenupval th => exact sweepopenupval_wellFormed th wellFormed
  | sweeproot sweepgc count => exact sweeproot_wellFormed sweepgc count wellFormed
  | collect marked gcstate currentwhite =>
    refine wellFormed.congr (fun r _ => ?_) (fun r _ => ?_) rfl rfl rfl rfl <;> cases r <;> rfl
  | newupval unused => exact newupval_wellFormed wellFormed unused
  | stackInit absent free => exact stackInit_wellFormed wellFormed absent free
  | freethread th => exact freethread_wellFormed th wellFormed

theorem Run.wellFormed (run : Run newstate s) : s.WellFormed := by
  induction run with
  | refl => exact newstate_wellFormed
  | tail _ step inductionHypothesis => exact step.wellFormed inductionHypothesis

/-- In every state that a run reaches the lists are ordered, the ring has the open upvalues of all
threads, `gafqF_findupval` finds the open upvalue for a slot, and `gafqF_close` detaches the upvalues
from a level on. -/
theorem run_upvalues (run : Run newstate s) (thread : s.thread th = some t) :
    (t.openupval.Pairwise (fun a b => s.level b < s.level a) ∧
      ∀ u ∈ t.openupval, s.allocated u = true ∧ ∃ p, s.v u = .stack p ∧ t.HasSlot p) ∧
    (∃ us : List Nat, Ring s.next s.prev .uvhead (us.map .obj) ∧
      (∀ u, u ∈ us ↔ s.allocated u = true ∧ s.v u ≠ .value) ∧
      ∀ u, u ∈ us ↔ ∃ th' t', s.thread th' = some t' ∧ u ∈ t'.openupval) ∧
    (∀ u ∈ t.openupval, ∀ fresh, (s.findupval th (s.level u) fresh).1 = u ∧
      (s.findupval th (s.level u) fresh).2.thread = s.thread ∧ (s.findupval th (s.level u) fresh).2.v = s.v ∧
      (s.findupval th (s.level u) fresh).2.isdead u = false) ∧
    ∀ level, (s.close th level).thread =
        Function.update s.thread th (some { t with openupval := t.openupval.filter (s.level · < level) }) ∧
      (∀ u ∈ t.openupval, level ≤ s.level u → if s.isdead u then (s.close th level).allocated u = false
        else (s.close th level).allocated u = true ∧ (s.close th level).v u = .value ∧
          ((s.close th level).uv (.obj u)).u = .value (s.mem (s.level u))) ∧
      ∀ u, (u ∈ t.openupval → s.level u < level) →
        (s.close th level).allocated u = s.allocated u ∧ (s.close th level).v u = s.v u := by
  have wellFormed := run.wellFormed
  refine ⟨⟨wellFormed.sorted thread, fun u member => wellFormed.openupval thread member⟩, ?_, fun u member fresh => ?_,
    fun level => ?_⟩
  · obtain ⟨us, ring, onRing⟩ := wellFormed.ring
    refine ⟨us, ring, onRing, fun u => (onRing u).trans ⟨wellFormed.listed, ?_⟩⟩
    rintro ⟨th', t', isThread, member⟩
    exact wellFormed.isOpen isThread member
  · have found := findLoop_found (wellFormed.sorted thread) member rfl
    unfold findupval
    rw [thread]
    simp only [found]
    by_cases dead : s.isdead u = true
    · rw [if_pos dead]
      refine ⟨trivial, rfl, funext fun w => ?_, ?_⟩
      · by_cases self : w = u
        · subst self
          simp [setMarked, v]
        · simp [setMarked, v, self]
      · simp [setMarked, isdead, marked, setUv]
    · rw [if_neg dead]
      exact ⟨trivial, rfl, rfl, by simpa using dead⟩
  · have closed := close_closed wellFormed thread level
    refine ⟨closed.thread, fun u member above => ?_, fun u below => ?_⟩
    · have ended := closed.ended u member above
      split
      · next dead => exact ended.dead dead
      · next notDead =>
        obtain ⟨allocated, isClosed, contents⟩ := ended.kept (by simpa using notDead)
        obtain ⟨-, p, points, -⟩ := wellFormed.openupval thread member
        refine ⟨allocated, isClosed, ?_⟩
        simp only [contents, upvalValue, State.level, points]
    · have untouched := closed.untouched u below
      exact ⟨untouched.allocated, untouched.v⟩

/-- A thread with upvalues for two of its slots. -/
def twoOpen : State Int := ((newstate.stackInit 0 100).findupval 0 103 1).2.findupval 0 105 2 |>.2

theorem twoOpen_run : Run newstate twoOpen := by
  have started : Run newstate ((newstate : State Int).stackInit 0 100) :=
    .single (.stackInit rfl fun _ _ _ isThread => nomatch isThread)
  have first : Run newstate (((newstate : State Int).stackInit 0 100).findupval 0 103 1).2 :=
    started.tail (.findupval rfl (by decide) rfl)
  exact first.tail (.findupval rfl (by decide) (by decide))

theorem run_upvalues_twoOpen : (twoOpen.findupval 0 105 9).1 = 2 ∧ (twoOpen.close 0 104).v 2 = .value := by
  have thread : twoOpen.thread 0 = some ⟨100, 45, 101, 101, [⟨100, 101, 121⟩], [2, 1]⟩ := by decide
  have claims := run_upvalues twoOpen_run thread
  have found := (claims.2.2.1 2 (by decide) 9).1
  have closed := (claims.2.2.2 104).2.1 2 (by decide) (by decide)
  have level : twoOpen.level 2 = 105 := by decide
  have alive : twoOpen.isdead 2 = false := by decide
  rw [level] at found
  rw [alive] at closed
  exact ⟨found, closed.2.1⟩

end Gafq.Upvalues.State
