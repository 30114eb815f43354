import Gafq.Verified.GC.Runs

/-! # `gafq_setupvalue`

The value is stored in the upvalue, and the barrier looks at the closure.  An upvalue that two
closures share may be black while one of them is not; a white value that is stored through that
closure is then referred to by a black object.
-/

namespace Gafq.GC.State

variable {N : Type} {s s' : State N} {o p r : GCRef}

/-- No black closed upvalue and no black closure refers to a white object. -/
def Guarded (s : State N) : Prop :=
  ∀ o r, ((∃ a, o = .closure a) ∨ ∃ u v, o = .upval u ∧ s.upval u = .closed v) →
    s.colour o = some .black → s.Refers o r → s.iswhite r = false

theorem Consistent.guarded (consistent : Consistent nothing s) (phase : s.gcstate = .propagate) : s.Guarded :=
  fun _ _ _ black refers =>
    (((consistent.marking phase).black black refers.holds).resolve_right id).not_white

/-- The upvalue has been marked and the closure has not, and the value on the stack is white. -/
def BarrierMisses (s : State N) (f n : Nat) : Prop :=
  ∃ env p upvals u, s.closure f = .gafq env p upvals ∧ upvals[n - 1]? = some u ∧ s.isblack (.closure f) = false ∧
    s.isblack (.upval u) = true ∧ s.valiswhite (s.fromTop 1) = true

theorem setupvalue_c {env f n : Nat} {upvalue : List (TValue N)} {name : TString} (kind : s.closure f = .c env upvalue)
    (set : s.setupvalue f n = some (name, s')) :
    s' = ((s.pop 1).setClosure f (Closure.setUpvalue (n - 1) (s.fromTop 1) (s.closure f))).barrier (.closure f) (s.fromTop 1) := by
  unfold setupvalue auxUpvalue at set
  rw [kind] at set
  simp only at set
  split at set
  · cases set
  · next outcome =>
    split at outcome
    · cases outcome
      obtain ⟨-, rfl⟩ := Prod.mk.inj (Option.some.inj set)
      rfl
    · cases outcome

theorem setupvalue_gafq {env p f n : Nat} {upvals : List Nat} {name : TString}
    (kind : s.closure f = .gafq env p upvals) (set : s.setupvalue f n = some (name, s')) :
    ∃ u, upvals[n - 1]? = some u ∧ s' = ((s.pop 1).setUpvalValue u (s.fromTop 1)).barrier (.closure f) (s.fromTop 1) := by
  unfold setupvalue auxUpvalue at set
  rw [kind] at set
  simp only at set
  split at set
  · cases set
  · next outcome =>
    split at outcome
    · split at outcome
      · next u name' found _ =>
        cases outcome
        obtain ⟨-, rfl⟩ := Prod.mk.inj (Option.some.inj set)
        exact ⟨u, found, rfl⟩
      · cases outcome
    · cases outcome

theorem valiswhite_iff {v : TValue N} : s.valiswhite v = true ↔ ∃ r, gcvalue v = some r ∧ s.iswhite r = true := by
  unfold valiswhite
  cases gcvalue v <;> simp

/-- What the store leaves for the barrier, which looks at another object. -/
theorem Consistent.barrierElsewhere {u : Nat} {v : TValue N}
    (consistent : Consistent (fun p r => p = .upval u ∧ gcvalue v = some r) s) (phase : s.gcstate = .propagate)
    (live : s.Live p) (liveValue : ∀ {r}, gcvalue v = some r → s.Live r)
    (fits : s.isblack p = true ∨ s.isblack (.upval u) = false ∨ s.valiswhite v = false) :
    Consistent nothing (s.barrier p v) := by
  by_cases white : s.valiswhite v = true
  · obtain ⟨o, isRef, isWhite⟩ := valiswhite_iff.1 white
    obtain black | notBlack | notWhite := fits
    · -- the barrier marks the value
      have crossing : (s.iswhite o && s.isblack p) = true := by rw [isWhite, black]; rfl
      have result : s.barrier p v = s.reallymarkobject o := by
        unfold State.barrier
        rw [isRef]
        simp only [State.objbarrier, crossing, if_true, barrierf, phase]
      obtain ⟨marks, marked⟩ := reallymarkobject_marks (consistent.sound (.inr phase)).grounded isWhite
      rw [result]
      refine consistent.marks phase marks fun isPending => .inl ?_
      rw [← Option.some.inj (isRef.symm.trans isPending.2)]
      exact marked
    · have settled : Consistent nothing s := consistent.discharge fun black isPending => by
        rw [isPending.1, ← isblack_iff, notBlack] at black
        cases black
      exact settled.barrier live liveValue fun isPending => isPending.elim
    · rw [white] at notWhite
      cases notWhite
  · have settled : Consistent nothing s := consistent.discharge fun {q r} _ isPending => by
      refine .inl (nonWhite_of_not_white (liveValue isPending.2).allocated (Bool.eq_false_iff.2 fun isWhite => ?_))
      exact white (valiswhite_iff.2 ⟨r, isPending.2, isWhite⟩)
    exact settled.barrier live liveValue fun isPending => isPending.elim

/-- A call of `gafq_setupvalue` keeps the invariant exactly if the upvalue is not black or the
closure is black too or the value is not white. -/
theorem setupvalue_guarded_iff {f n : Nat} {name : TString} (consistent : Consistent nothing s)
    (phase : s.gcstate = .propagate) (reachable : s.Reachable (.closure f)) (deep : 1 ≤ (s.thread s.running).top)
    (set : s.setupvalue f n = some (name, s')) :
    (s'.Guarded ↔ ¬ s.BarrierMisses f n) ∧ (Consistent nothing s' ↔ ¬ s.BarrierMisses f n) := by
  have live : s.Live (.closure f) := consistent.live reachable
  have liveValue : ∀ {r}, gcvalue (s.fromTop 1) = some r → s.Live r := consistent.fromTop_live Nat.one_pos deep
  have popped : Consistent nothing (s.pop 1) := pop_consistent consistent
  have conclude : (¬ s.BarrierMisses f n → Consistent nothing s' ∧ s'.gcstate = .propagate) →
      (s.BarrierMisses f n → ¬ s'.Guarded ∧ s'.gcstate = .propagate) →
      (s'.Guarded ↔ ¬ s.BarrierMisses f n) ∧ (Consistent nothing s' ↔ ¬ s.BarrierMisses f n) := by
    intro keeps breaks
    by_cases misses : s.BarrierMisses f n
    · obtain ⟨broken, phase'⟩ := breaks misses
      exact ⟨⟨fun guarded => absurd guarded broken, absurd misses⟩,
        fun consistent' => absurd (consistent'.guarded phase') broken, absurd misses⟩
    · obtain ⟨consistent', phase'⟩ := keeps misses
      exact ⟨⟨fun _ => misses, fun _ => consistent'.guarded phase'⟩, fun _ => misses, fun _ => consistent'⟩
  cases kind : s.closure f with
  | c env upvalue =>
    have stored : Consistent (fun p r => p = .closure f ∧ gcvalue (s.fromTop 1) = some r)
        ((s.pop 1).setClosure f (Closure.setUpvalue (n - 1) (s.fromTop 1) (s.closure f))) :=
      setUpvalue_stored popped liveValue
    refine conclude (fun _ => ?_) fun misses => ?_
    · rw [setupvalue_c kind set]
      refine ⟨stored.barrier live liveValue id, ?_⟩
      rw [(barrier_marks stored phase (.closure f)).background]
      exact phase
    · obtain ⟨_, _, _, _, isGafq, -⟩ := misses
      exact (nomatch kind.symm.trans isGafq)
  | gafq env p upvals =>
    obtain ⟨u, found, rfl⟩ := setupvalue_gafq kind set
    have stored := setUpvalValue_consistent (u := u) popped liveValue
    have colour : ((s.pop 1).setUpvalValue u (s.fromTop 1)).colour = s.colour := setUpvalValue_colour _ u _
    have phase₁ : ((s.pop 1).setUpvalValue u (s.fromTop 1)).gcstate = .propagate := by
      unfold setUpvalValue
      split <;> exact phase
    have isLive : ∀ {r}, s.Live r → ((s.pop 1).setUpvalValue u (s.fromTop 1)).Live r := fun before =>
      (setUpvalValue_live (s.pop 1) u _).2 before
    have upval : ∀ {v}, s.upval u = .closed v →
        ((s.pop 1).setUpvalValue u (s.fromTop 1)).upval u = .closed (s.fromTop 1) := by
      intro v closed
      have same : (s.pop 1).upval u = .closed v := closed
      simp only [setUpvalValue, same, setUpval, Function.update_self]
    have isblack : ∀ r, ((s.pop 1).setUpvalValue u (s.fromTop 1)).isblack r = s.isblack r := fun r => by
      unfold State.isblack
      rw [colour]
    have iswhite : ∀ r, ((s.pop 1).setUpvalValue u (s.fromTop 1)).iswhite r = s.iswhite r := fun r => by
      unfold State.iswhite
      rw [colour]
    have valiswhite : ∀ v, ((s.pop 1).setUpvalValue u (s.fromTop 1)).valiswhite v = s.valiswhite v := fun v => by
      unfold State.valiswhite
      rw [funext iswhite]
    generalize (s.pop 1).setUpvalValue u (s.fromTop 1) = s₁ at *
    refine conclude (fun fits => ?_) fun misses => ?_
    · refine ⟨stored.barrierElsewhere phase₁ (isLive live) (fun isRef => isLive (liveValue isRef)) ?_, ?_⟩
      · rw [isblack, isblack, valiswhite]
        by_contra none
        simp only [not_or, Bool.not_eq_true, Bool.not_eq_false] at none
        exact fits ⟨env, p, upvals, u, kind, found, none⟩
      · rw [(barrier_marks stored phase₁ (.closure f)).background]
        exact phase₁
    · obtain ⟨_, _, _, _, isGafq, found', notBlack, black, white⟩ := misses
      cases kind.symm.trans isGafq
      cases found.symm.trans found'
      obtain ⟨o, isRef, isWhite⟩ := valiswhite_iff.1 white
      have unchanged : s₁.barrier (.closure f) (s.fromTop 1) = s₁ := by
        unfold State.barrier
        rw [isRef]
        simp only [State.objbarrier, isblack, notBlack, Bool.and_false, Bool.false_eq_true, if_false]
      rw [unchanged]
      refine ⟨fun guarded => ?_, phase₁⟩
      have isBlack : s.colour (.upval u) = some .black := isblack_iff.1 black
      cases isUpval : s.upval u with
      | inStack th level => exact consistent.notOpen isBlack ⟨u, th, level, rfl, isUpval⟩
      | closed old =>
        have refers : s₁.Refers (.upval u) o := by
          simp only [Refers, upvalValue, upval isUpval]
          exact isRef
        have notWhite := guarded (.upval u) o (.inr ⟨u, _, rfl, upval isUpval⟩) (colour ▸ isBlack) refers
        rw [iswhite, isWhite] at notWhite
        cases notWhite

/-! ## Two closures that share an upvalue -/

/-- A prototype with one upvalue and three more slots. -/
def protoOnStack : State Int :=
  ((((((opened.newproto 0).pushlstr (chars "x") 0).indexupvalue 0 0).push 0 .nil).push 0 .nil).push 0 .nil)

/-- Closures in slots 4 and 5 that share the variable of slot 3, after the block has ended. -/
def sharedUpvalue : State Int :=
  ((protoOnStack.opClosure 0 0 [.local 3 0] 0 4).opClosure 0 0 [.upvalue 0] 1 5).close 0 3

/-- The collector has traversed the second closure but not the first, and there is a new table. -/
def halfMarked : State Int :=
  sharedUpvalue.singlestep.singlestep.singlestep.singlestep.singlestep.createtable { array := true, nodes := true } 0 0 2

theorem protoOnStack_run : Run opened protoOnStack := by
  have proto : Run opened ((opened : State Int).newproto 0) := .single (.mutates (.newproto (by decide)))
  have name : Run opened (((opened : State Int).newproto 0).pushlstr (chars "x") 0) :=
    proto.tail (.mutates (.pushlstr _ (by decide)))
  have upvalue : Run opened ((((opened : State Int).newproto 0).pushlstr (chars "x") 0).indexupvalue 0 0) :=
    name.tail (.mutates (.indexupvalue (reachable_slot (i := 1) (by decide) (by decide +kernel))
      (reachable_slot (i := 2) (by decide) (by decide +kernel))))
  have slot : ∀ {s : State Int}, Run opened s → s.mainthread = 0 → Run opened (s.push 0 .nil) := fun run main =>
    run.tail (.mutates (.push (reachable_main main) fun isRef => nomatch isRef))
  exact slot (slot (slot upvalue (by decide)) (by decide +kernel)) (by decide +kernel)

theorem sharedUpvalue_run : Run opened sharedUpvalue := by
  have first : Run opened (protoOnStack.opClosure 0 0 [.local 3 0] 0 4) := by
    refine protoOnStack_run.tail (.mutates (.opClosure (reachable_globals (by decide))
      (reachable_slot (i := 1) (by decide) (by decide +kernel)) (by decide +kernel) (by decide +kernel) ?_))
    exact .local (by decide) (by decide +kernel) .nil
  have second : Run opened ((protoOnStack.opClosure 0 0 [.local 3 0] 0 4).opClosure 0 0 [.upvalue 0] 1 5) := by
    refine first.tail (.mutates (.opClosure (reachable_globals (by decide))
      (reachable_slot (i := 1) (by decide) (by decide +kernel)) (by decide +kernel) (by decide +kernel) ?_))
    have closure := reachable_slot (s := (protoOnStack.opClosure 0 0 [.local 3 0] 0 4).newLclosure 0 0 1) (i := 4)
      (r := .closure 0) (by decide) (by decide +kernel)
    refine .upvalue (closure.tail ?_) .nil
    show GCRef.upval 0 ∈ Closure.refs _
    decide
  exact second.tail (.mutates (.close 3 (reachable_main (by decide))))

theorem halfMarked_run : Run opened halfMarked := by
  have marked := ((((sharedUpvalue_run.tail .singlestep).tail .singlestep).tail .singlestep).tail .singlestep).tail .singlestep
  exact marked.tail (.mutates (.createtable _ 0 0 (by decide)))

theorem halfMarked_consistent : Consistent nothing halfMarked := halfMarked_run.consistent opened_consistent

/-- The new table in the black upvalue. -/
def halfStored : State Int :=
  ((halfMarked.pop 1).setUpvalValue 0 (halfMarked.fromTop 1)).barrier (.closure 0) (halfMarked.fromTop 1)

theorem halfMarked_reachable : halfMarked.Reachable (.closure 0) :=
  reachable_slot (i := 4) (by decide) (by decide +kernel)

theorem setupvalue_halfMarked : halfMarked.setupvalue 0 1 = some (chars "x", halfStored) := by
  have found : halfMarked.auxUpvalue 0 1 = some (.gafq 0, chars "x") := by decide
  unfold setupvalue
  rw [found]
  rfl

theorem setupvalue_guarded_iff_halfMarked : ¬ halfStored.Guarded ∧ ¬ Consistent nothing halfStored := by
  have iffs := setupvalue_guarded_iff halfMarked_consistent (by decide) halfMarked_reachable (by decide +kernel)
    setupvalue_halfMarked
  have misses : halfMarked.BarrierMisses 0 1 :=
    ⟨0, 0, [0], 0, rfl, rfl, by decide, by decide +kernel, by decide +kernel⟩
  exact ⟨fun guarded => iffs.1.1 guarded misses, fun consistent => iffs.2.1 consistent misses⟩

/-- A white table is stored in a black upvalue. -/
theorem setupvalue_leaves_white : ∃ s s' : State Int, Consistent nothing s ∧ s.gcstate = .propagate ∧
    s.Reachable (.closure 0) ∧ s.setupvalue 0 1 = some (chars "x", s') ∧ ¬ s'.Guarded := by
  refine ⟨halfMarked, halfStored, halfMarked_consistent, by decide, halfMarked_reachable, setupvalue_halfMarked,
    fun guarded => ?_⟩
  have refers : halfStored.Refers (.upval 0) (.table 2) := by
    show gcvalue (halfStored.upvalValue 0) = some (.table 2)
    decide
  have white := guarded (.upval 0) (.table 2) (.inr ⟨0, .object .table 2, rfl, rfl⟩) (by decide) refers
  revert white
  decide

end Gafq.GC.State
