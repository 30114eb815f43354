import Gafq.Verified.GC.Marking

/-! # Fading references

The collector takes references away and adds none: it removes dead entries from tables and clears
stack slots that are not in use.  A table may become weaker on the way but never stronger, for the
entry of a metatable that says so has two strings and is never removed.
-/

namespace Gafq.GC

variable {N : Type}

/-- Some entries have been removed, but none that has two strings. -/
structure TableObject.Dwindles (x x' : TableObject N) : Prop where
  metatable : x'.metatable = x.metatable
  sizearray : x'.h.sizearray = x.h.sizearray
  sizenode : x'.h.sizenode = x.h.sizenode
  isDummy : x'.h.isDummy = x.h.isDummy
  array : ∀ i, x'.h.array i = x.h.array i ∨ x'.h.array i = .nil
  node : ∀ i, x'.h.node i = x.h.node i ∨ (x'.h.node i).val = .nil ∧ gcvalue (x'.h.node i).key = none
  names : ∀ i k m, (x.h.node i).key = .string k → (x.h.node i).val = .string m → x'.h.node i = x.h.node i

theorem TableObject.Dwindles.refl (x : TableObject N) : x.Dwindles x :=
  ⟨rfl, rfl, rfl, rfl, fun _ => .inl rfl, fun _ => .inl rfl, fun _ _ _ _ _ => rfl⟩

theorem TableObject.Dwindles.trans {x x' x'' : TableObject N} (first : x.Dwindles x') (second : x'.Dwindles x'') :
    x.Dwindles x'' where
  metatable := second.metatable.trans first.metatable
  sizearray := second.sizearray.trans first.sizearray
  sizenode := second.sizenode.trans first.sizenode
  isDummy := second.isDummy.trans first.isDummy
  array i := by
    cases second.array i with
    | inl same => exact same ▸ first.array i
    | inr cleared => exact .inr cleared
  node i := by
    cases second.node i with
    | inl same => exact same ▸ first.node i
    | inr removed => exact .inr removed
  names i k m key val := by
    have same := first.names i k m key val
    rw [second.names i k m (same ▸ key) (same ▸ val), same]

theorem TableObject.Dwindles.refers {x x' : TableObject N} {r : GCRef} (dwindles : x.Dwindles x')
    (refers : x'.Refers r) : x.Refers r := by
  obtain isMetatable | ⟨i, inside, isRef⟩ | ⟨i, inside, used, isRef⟩ := refers
  · exact .inl (dwindles.metatable ▸ isMetatable)
  · cases dwindles.array i with
    | inl same => exact .inr (.inl ⟨i, dwindles.sizearray ▸ inside, same ▸ isRef⟩)
    | inr cleared => simp [cleared, gcvalue] at isRef
  · cases dwindles.node i with
    | inl same => exact .inr (.inr ⟨i, dwindles.sizenode ▸ inside, same ▸ used, same ▸ isRef⟩)
    | inr removed => exact absurd removed.1 used

/-- Some stack slots have been cleared. -/
structure ThreadObject.Dwindles (x x' : ThreadObject N) : Prop where
  gt : x'.gt = x.gt
  top : x'.top = x.top
  stack : ∀ i, x'.stack i = x.stack i ∨ x'.stack i = .nil

theorem ThreadObject.Dwindles.refl (x : ThreadObject N) : x.Dwindles x := ⟨rfl, rfl, fun _ => .inl rfl⟩

theorem ThreadObject.Dwindles.trans {x x' x'' : ThreadObject N} (first : x.Dwindles x') (second : x'.Dwindles x'') :
    x.Dwindles x'' where
  gt := second.gt.trans first.gt
  top := second.top.trans first.top
  stack i := by
    cases second.stack i with
    | inl same => exact same ▸ first.stack i
    | inr cleared => exact .inr cleared

namespace State

variable {s s' s₁ : State N} {o p r : GCRef}

/-- What the collector does to the references of the heap. -/
structure Fades (s s' : State N) : Prop where
  refers : ∀ {p r}, s'.Refers p r → s.Refers p r
  string : s'.string = s.string
  tmMode : s'.tmMode = s.tmMode
  table : ∀ a, (s.table a).Dwindles (s'.table a)
  thread : ∀ a, (s.thread a).Dwindles (s'.thread a)

namespace Fades

theorem of_eq (refers : s'.Refers = s.Refers) (string : s'.string = s.string) (tmMode : s'.tmMode = s.tmMode)
    (table : s'.table = s.table) (thread : s'.thread = s.thread) : Fades s s' where
  refers after := refers ▸ after
  string := string
  tmMode := tmMode
  table _ := table ▸ .refl _
  thread _ := thread ▸ .refl _

/-- Threads may lose open upvalues. -/
theorem of_openupval (refers : ∀ {p r}, s'.Refers p r → s.Refers p r) (string : s'.string = s.string)
    (tmMode : s'.tmMode = s.tmMode) (table : s'.table = s.table)
    (thread : ∀ a, ∃ openupval, s'.thread a = { s.thread a with openupval }) : Fades s s' where
  refers := refers
  string := string
  tmMode := tmMode
  table _ := table ▸ .refl _
  thread a := by
    obtain ⟨openupval, same⟩ := thread a
    rw [same]
    exact ⟨rfl, rfl, fun _ => .inl rfl⟩

theorem refl (s : State N) : Fades s s := of_eq rfl rfl rfl rfl rfl

theorem trans (first : Fades s s₁) (second : Fades s₁ s') : Fades s s' where
  refers after := first.refers (second.refers after)
  string := second.string.trans first.string
  tmMode := second.tmMode.trans first.tmMode
  table a := (first.table a).trans (second.table a)
  thread a := (first.thread a).trans (second.thread a)

/-- A tag method that is a string is still the first one of its name. -/
theorem gettm (fades : Fades s s') {events name m : Nat} (found : s.gettm events name = .string m) :
    s'.gettm events name = .string m := by
  have dwindles := fades.table events
  unfold State.gettm at found ⊢
  simp only at found ⊢
  rw [dwindles.sizenode]
  cases first : (List.range (s.table events).h.sizenode).find? fun i =>
      gcvalue ((s.table events).h.node i).key == some (.string name) with
  | none =>
    rw [first] at found
    cases found
  | some i =>
    rw [first] at found
    obtain ⟨isName, before, after, range, earlier⟩ := List.find?_eq_some_iff_append.1 first
    have key : ((s.table events).h.node i).key = .string name := by
      cases isKey : ((s.table events).h.node i).key with
      | object tt a => cases tt <;> simp [isKey, gcvalue] at isName
      | string a => simpa [isKey, gcvalue] using isName
      | nil | boolean | lightuserdata | number | deadkey => simp [isKey, gcvalue] at isName
    have same := dwindles.names i name m key found
    have again : (List.range (s.table events).h.sizenode).find? (fun i =>
        gcvalue ((s'.table events).h.node i).key == some (.string name)) = some i := by
      apply List.find?_eq_some_iff_append.2
      refine ⟨by simpa [same] using isName, before, after, range, fun j member => ?_⟩
      have other := earlier j member
      cases dwindles.node j with
      | inl same => simpa [same] using other
      | inr removed => simp [removed.2]
    rw [again]
    simpa only [same] using found

/-- A table that was weak is weak. -/
theorem mode (fades : Fades s s') (a : Nat) :
    ((s'.mode a).1 = false → (s.mode a).1 = false) ∧ ((s'.mode a).2 = false → (s.mode a).2 = false) := by
  have metatable := (fades.table a).metatable
  unfold State.mode
  rw [metatable, fades.tmMode, fades.string]
  cases (s.table a).metatable with
  | none => simp
  | some mt =>
    cases found : s.gettm mt s.tmMode with
    | string m => simp only [found, fades.gettm found, imp_self, and_self]
    | nil | boolean | lightuserdata | number | object | deadkey => simp only [found, implies_true, and_self]

/-- The references that the collector follows fade with the others. -/
theorem strong (fades : Fades s s') (after : s'.StrongRefers p r) : s.StrongRefers p r := by
  cases p with
  | table a =>
    have dwindles := fades.table a
    obtain ⟨key, value⟩ := fades.mode a
    obtain isMetatable | ⟨strong, i, inside, isRef⟩ | ⟨i, inside, used, isRef⟩ := after
    · exact .inl (dwindles.metatable ▸ isMetatable)
    · refine .inr (.inl ⟨value strong, i, dwindles.sizearray ▸ inside, ?_⟩)
      cases dwindles.array i with
      | inl same => exact same ▸ isRef
      | inr cleared => simp [cleared, gcvalue] at isRef
    · cases dwindles.node i with
      | inl same =>
        rw [same] at used isRef
        exact .inr (.inr ⟨i, dwindles.sizenode ▸ inside, used, isRef.imp (And.imp_left key) (And.imp_left value)⟩)
      | inr removed => exact absurd removed.1 used
  | thread a =>
    have dwindles := fades.thread a
    obtain isGlobals | ⟨i, inside, isRef⟩ := after
    · exact .inl (dwindles.gt ▸ isGlobals)
    · refine .inr ⟨i, dwindles.top ▸ inside, ?_⟩
      cases dwindles.stack i with
      | inl same => exact same ▸ isRef
      | inr cleared => simp [cleared, gcvalue] at isRef
  | string a => exact absurd after id
  | udata a => exact @Fades.refers _ _ _ fades (.udata a) r after
  | proto a => exact @Fades.refers _ _ _ fades (.proto a) r after
  | closure a => exact @Fades.refers _ _ _ fades (.closure a) r after
  | upval a => exact @Fades.refers _ _ _ fades (.upval a) r after

end Fades

theorem Marks.fades (marks : Marks s s') : Fades s s' :=
  .of_eq marks.refers (by rw [marks.background]) (by rw [marks.background]) marks.table marks.thread

end State

end Gafq.GC
