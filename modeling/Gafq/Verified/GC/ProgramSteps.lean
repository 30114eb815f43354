import Gafq.Mutator
import Gafq.Verified.GC.Updates
import Gafq.Verified.GC.Collector

/-! # What the program leaves alone

No operation of the program frees an object, with the exception of open upvalues that are dead
anyway, and while the collector is not marking none brings a dead object back to life, with the
exception of strings and open upvalues.  The userdata and the list `tmudata` stay as they are, and new objects other than
userdata come before all others in `rootgc`.
-/

namespace Gafq.GC.State

variable {N : Type} {s s' s₁ : State N} {o p r : GCRef}

structure Respects (s s' : State N) : Prop where
  currentwhite : s'.currentwhite = s.currentwhite
  gcstate : s'.gcstate = s.gcstate
  mainthread : s'.mainthread = s.mainthread
  tmudata : s'.tmudata = s.tmudata
  rootgc : ∃ new, s'.rootgc = new ++ s.rootgc ∧ ∀ u, .udata u ∉ new
  finalized : ∀ u, (s'.udata u).finalized = (s.udata u).finalized
  stays : ∀ {r}, (∀ u, r ≠ .upval u) → s.colour r ≠ none → s'.colour r ≠ none ∧ s'.fixed r = s.fixed r
  noneNew : ∀ {u}, s'.colour (.udata u) ≠ none → s.colour (.udata u) ≠ none
  spares : ∀ {r}, s.gcstate ≠ .propagate → s.Live r → s'.Live r
  dead : ∀ {r}, s.gcstate ≠ .propagate → r.Traversable → s.isdead r = true → s'.isdead r = true
  whitens : ∀ {u}, s.gcstate ≠ .propagate → s'.colour (.udata u) = s.colour (.udata u) ∨
    s'.colour (.udata u) = some (.white s.currentwhite)
  noneCondemned : ∀ {r}, s.gcstate ≠ .propagate → s'.collects r = true → s.collects r = true

namespace Respects

theorem trans (first : Respects s s₁) (second : Respects s₁ s') : Respects s s' where
  currentwhite := second.currentwhite.trans first.currentwhite
  gcstate := second.gcstate.trans first.gcstate
  mainthread := second.mainthread.trans first.mainthread
  tmudata := second.tmudata.trans first.tmudata
  rootgc := by
    obtain ⟨new₁, rootgc₁, noUdata₁⟩ := first.rootgc
    obtain ⟨new₂, rootgc₂, noUdata₂⟩ := second.rootgc
    refine ⟨new₂ ++ new₁, by rw [rootgc₂, rootgc₁, List.append_assoc], fun u member => ?_⟩
    exact (List.mem_append.1 member).elim (noUdata₂ u) (noUdata₁ u)
  finalized u := (second.finalized u).trans (first.finalized u)
  stays notUpval present := by
    obtain ⟨present₁, fixed₁⟩ := first.stays notUpval present
    obtain ⟨present₂, fixed₂⟩ := second.stays notUpval present₁
    exact ⟨present₂, fixed₂.trans fixed₁⟩
  noneNew present := first.noneNew (second.noneNew present)
  spares phase live := second.spares (first.gcstate ▸ phase) (first.spares phase live)
  dead phase traversable isDead := second.dead (first.gcstate ▸ phase) traversable (first.dead phase traversable isDead)
  whitens phase := by
    obtain same | white := second.whitens (first.gcstate ▸ phase)
    · rw [same]
      exact first.whitens phase
    · exact .inr (first.currentwhite ▸ white)
  noneCondemned phase collects := first.noneCondemned phase (second.noneCondemned (first.gcstate ▸ phase) collects)

/-- Contents of objects are changed, but no colour and none of the lists. -/
theorem of_same (marked : s'.marked = s.marked) (fixed : s'.fixed = s.fixed) (rootgc : s'.rootgc = s.rootgc)
    (currentwhite : s'.currentwhite = s.currentwhite) (gcstate : s'.gcstate = s.gcstate)
    (mainthread : s'.mainthread = s.mainthread) (tmudata : s'.tmudata = s.tmudata)
    (finalized : ∀ u, (s'.udata u).finalized = (s.udata u).finalized) : Respects s s' where
  currentwhite := currentwhite
  gcstate := gcstate
  mainthread := mainthread
  tmudata := tmudata
  rootgc := ⟨[], rootgc, fun _ => List.not_mem_nil⟩
  finalized := finalized
  stays {r} _ present := ⟨by rwa [colour, marked], congrFun fixed r⟩
  noneNew present := by rwa [colour, marked] at present
  spares _ live := (live_congr (congrFun marked _) currentwhite).2 live
  dead _ _ isDead := (isdead_congr (congrFun marked _) currentwhite).trans isDead
  whitens _ := .inl (congrFun marked _)
  noneCondemned _ collects := (collects_congr (congrFun marked _) currentwhite fixed).symm.trans collects

theorem refl (s : State N) : Respects s s := of_same rfl rfl rfl rfl rfl rfl rfl fun _ => rfl

theorem setThread (s : State N) (a : Nat) (x : ThreadObject N) : Respects s (s.setThread a x) :=
  of_same rfl rfl rfl rfl rfl rfl rfl fun _ => rfl

theorem setTable (s : State N) (a : Nat) (x : TableObject N) : Respects s (s.setTable a x) :=
  of_same rfl rfl rfl rfl rfl rfl rfl fun _ => rfl

theorem setProto (s : State N) (a : Nat) (x : ProtoObject N) : Respects s (s.setProto a x) :=
  of_same rfl rfl rfl rfl rfl rfl rfl fun _ => rfl

theorem setClosure (s : State N) (a : Nat) (x : Closure N) : Respects s (s.setClosure a x) :=
  of_same rfl rfl rfl rfl rfl rfl rfl fun _ => rfl

theorem setUpval (s : State N) (a : Nat) (x : UpVal N) : Respects s (s.setUpval a x) :=
  of_same rfl rfl rfl rfl rfl rfl rfl fun _ => rfl

theorem setUdata (s : State N) (a : Nat) {x : Udata} (finalized : x.finalized = (s.udata a).finalized) :
    Respects s (s.setUdata a x) := by
  refine of_same rfl rfl rfl rfl rfl rfl rfl fun u => ?_
  by_cases same : u = a
  · subst same
    simpa [State.setUdata] using finalized
  · simp [State.setUdata, same]

theorem foldl {α : Type} {f : State N → α → State N} (step : ∀ s a, Respects s (f s a)) (as : List α) :
    ∀ s : State N, Respects s (as.foldl f s) := by
  induction as with
  | nil => exact refl
  | cons a as inductionHypothesis => exact fun s => (step s a).trans (inductionHypothesis _)

/-- Marking, in the mark phase. -/
theorem of_repaints {P : GCRef → Prop} (repaints : Repaints P s s') (phase : s.gcstate = .propagate) : Respects s s' := by
  have unchanged := repaints.unchanged
  have background := unchanged.background
  refine ⟨by rw [background], by rw [background], by rw [background], by rw [background],
    ⟨[], by simp only [State.rootgc, background]; rfl, fun _ => List.not_mem_nil⟩, fun u => by rw [background],
    fun _ present => ⟨(unchanged.allocated _).2 present, by rw [background]⟩, fun present => (unchanged.allocated _).1 present,
    (absurd phase ·), (absurd phase ·), (absurd phase ·), (absurd phase ·)⟩

theorem paint_allocated (s : State N) (o : GCRef) (f : Colour → Colour) (r : GCRef) :
    (s.paint o f).colour r ≠ none ↔ s.colour r ≠ none :=
  (Repaints.unchanged (paint_repaints (P := fun _ => True) s f trivial)).allocated r

/-- An object that is painted does not become dead, and does not come back to life if the collector
could traverse it. -/
theorem paint {f : Colour → Colour}
    (turned : ∀ c, s.colour o = some c → f c = c ∨ f c ≠ .white !s.currentwhite ∧
      (o.Traversable → c ≠ .white !s.currentwhite) ∧ ∀ u, o = .udata u → f c = .white s.currentwhite) :
    Respects s (s.paint o f) where
  currentwhite := rfl
  gcstate := rfl
  mainthread := rfl
  tmudata := rfl
  rootgc := ⟨[], rfl, fun _ => List.not_mem_nil⟩
  finalized _ := rfl
  stays {r} _ present := ⟨(paint_allocated s o f r).2 present, rfl⟩
  noneNew present := (paint_allocated s o f _).1 present
  spares {r} _ live := by
    obtain ⟨c, isColour, alive⟩ := live
    by_cases self : r = o
    · subst self
      refine ⟨f c, by rw [colour_paint_self, isColour]; rfl, ?_⟩
      obtain same | ⟨lives, -⟩ := turned c isColour
      · exact same.symm ▸ alive
      · exact lives
    · exact ⟨c, by rw [colour_paint_of_ne s f self, isColour], alive⟩
  dead {r} _ traversable isDead := by
    have isColour := isdead_iff.1 isDead
    by_cases self : r = o
    · subst self
      obtain same | ⟨-, wasAlive, -⟩ := turned _ isColour
      · apply isdead_iff.2
        rw [colour_paint_self, isColour, Option.map_some, same]
        rfl
      · exact absurd rfl (wasAlive traversable)
    · exact isdead_iff.2 (by rw [colour_paint_of_ne s f self, isColour]; rfl)
  whitens {u} _ := by
    by_cases self : GCRef.udata u = o
    · subst self
      rw [colour_paint_self]
      cases isColour : s.colour (.udata u) with
      | none => exact .inl rfl
      | some c =>
        obtain same | ⟨-, -, white⟩ := turned c isColour
        · exact .inl (congrArg some same)
        · exact .inr (congrArg some (white u rfl))
    · exact .inl (colour_paint_of_ne s f self)
  noneCondemned {r} _ collects := by
    obtain ⟨isDead, notFixed⟩ := collects_iff.1 collects
    have isColour : (s.paint o f).colour r = some (.white !s.currentwhite) := isdead_iff.1 isDead
    apply collects_iff.2
    refine ⟨isdead_iff.2 ?_, notFixed⟩
    by_cases self : r = o
    · subst self
      rw [colour_paint_self] at isColour
      obtain ⟨c, before, after⟩ := Option.map_eq_some_iff.1 isColour
      obtain same | ⟨alive, -⟩ := turned c before
      · rw [before, ← after, same]
      · exact absurd after alive
    · rwa [colour_paint_of_ne s f self] at isColour

theorem linkroot (s : State N) (notUdata : ∀ u, o ≠ .udata u) : Respects s (s.linkroot o) := by
  have frame := linkroot_frame s o
  have rootgc := linkroot_rootgc s o
  generalize s.linkroot o = s' at frame rootgc
  generalize s'.swept = swept at frame
  generalize s'.unswept = unswept at frame
  subst frame
  exact ⟨rfl, rfl, rfl, rfl, ⟨[o], rootgc, fun u member => notUdata u (List.mem_singleton.1 member).symm⟩, fun _ => rfl,
    fun _ present => ⟨present, rfl⟩, id, fun _ => id, fun _ _ => id, fun _ => .inl rfl, fun _ => id⟩

/-- The mark of a new object that is no userdata. -/
theorem marknew (unused : s.marked o = none) (notUdata : ∀ u, o ≠ .udata u) : Respects s (s.marknew o) := by
  have marked : ∀ r, (s.marknew o).colour r = if r = o then some (.white s.currentwhite) else s.colour r := fun r => by
    simp only [colour, State.marknew, Function.update_apply]
  have other : ∀ {r}, s.colour r ≠ none → r ≠ o := fun present same => present (same ▸ unused)
  have kept : ∀ {r}, s.colour r ≠ none → (s.marknew o).colour r = s.colour r := fun present => by
    rw [marked, if_neg (other present)]
  have udata : ∀ {u}, (s.marknew o).colour (.udata u) = s.colour (.udata u) := fun {u} => by
    rw [marked, if_neg fun same => notUdata u same.symm]
  refine ⟨rfl, rfl, rfl, rfl, ⟨[], rfl, fun _ => List.not_mem_nil⟩, fun _ => rfl, fun _ present => ⟨?_, ?_⟩,
    fun present => udata ▸ present, fun _ live => ?_, fun _ _ isDead => ?_, fun _ => .inl udata, fun {r} _ collects => ?_⟩
  · rwa [kept present]
  · exact Function.update_of_ne (other present) _ _
  · exact (live_congr (kept live.allocated) rfl).2 live
  · have isColour := isdead_iff.1 isDead
    exact (isdead_congr (kept (by rw [isColour]; nofun)) rfl).trans isDead
  · have isWhite := isdead_iff.1 (collects_iff.1 collects).1
    by_cases self : r = o
    · rw [marked, if_pos self] at isWhite
      simp [State.marknew] at isWhite
    · rw [marked, if_neg self] at isWhite
      have notFixed := (collects_iff.1 collects).2
      simp only [State.marknew, Function.update_of_ne self] at notFixed
      exact collects_iff.2 ⟨isdead_iff.2 isWhite, notFixed⟩

/-- A new object that is no userdata. -/
theorem link (unused : s.marked o = none) (notUdata : ∀ u, o ≠ .udata u) : Respects s (s.link o) := by
  have linked := linkroot s notUdata
  have unused' : (s.linkroot o).marked o = none := by
    rw [linkroot_frame]
    exact unused
  exact linked.trans (marknew unused' notUdata)

end Respects

open Respects

/-! ## Barriers -/

theorem alive_of_black {c : Colour} {bit : Bool} (black : c = .black) : c ≠ .white bit := black ▸ nofun

theorem current_ne_dead (s : State N) : Colour.white s.currentwhite ≠ .white !s.currentwhite := by simp

theorem objbarrier_respects (s : State N) (p o : GCRef) : Respects s (s.objbarrier p o) := by
  unfold objbarrier barrierf
  split
  · next both =>
    have isBlack := isblack_iff.1 (Bool.and_eq_true_iff.1 both).2
    split
    · next phase => exact of_repaints (reallymarkobject_repaints (.any s) trivial) phase
    · refine Respects.paint fun c isColour => .inr ⟨current_ne_dead s, fun _ => alive_of_black ?_, fun _ _ => rfl⟩
      exact Option.some.inj (isColour.symm.trans isBlack)
  · exact refl s

theorem barrier_respects (s : State N) (p : GCRef) (v : TValue N) : Respects s (s.barrier p v) := by
  unfold State.barrier
  split
  · exact objbarrier_respects s p _
  · exact refl s

theorem objbarriert_respects (s : State N) (t : Nat) (o : GCRef) : Respects s (s.objbarriert t o) := by
  unfold objbarriert barrierback
  split
  · have painted : Respects s (s.black2gray (.table t)) := by
      refine Respects.paint fun c _ => ?_
      cases c with
      | black => exact .inr ⟨nofun, fun _ => nofun, nofun⟩
      | white | gray => exact .inl rfl
    exact painted.trans (of_same rfl rfl rfl rfl rfl rfl rfl fun _ => rfl)
  · exact refl s

theorem barriert_respects (s : State N) (t : Nat) (v : TValue N) : Respects s (s.barriert t v) := by
  unfold State.barriert
  split
  · exact objbarriert_respects s t _
  · exact refl s

/-! ## Strings -/

/-- `changewhite` of a dead object that no traversal comes to. -/
theorem changewhite_respects (isDead : s.isdead o = true) (notTraversable : ¬ o.Traversable) (notUdata : ∀ u, o ≠ .udata u) :
    Respects s (s.changewhite o) := by
  refine Respects.paint fun c isColour => .inr ⟨?_, fun traversable => absurd traversable notTraversable,
    fun u same => absurd same (notUdata u)⟩
  obtain rfl := Option.some.inj (isColour.symm.trans (isdead_iff.1 isDead))
  simp

theorem newlstr_respects (str : TString) {fresh : Nat} (unused : s.marked (.string fresh) = none) :
    Respects s (s.newlstr str fresh).2 := by
  unfold newlstr
  simp only
  split
  · split
    · next isDead => exact changewhite_respects isDead id nofun
    · exact refl s
  · -- a new string is in a bucket, not in `rootgc`
    have created : Respects s (s.marknew (.string fresh)) := Respects.marknew unused nofun
    unfold newstring
    simp only
    split
    · rw [resizestrt_frame]
      exact created.trans (of_same rfl rfl rfl rfl rfl rfl rfl fun _ => rfl)
    · exact created.trans (of_same rfl rfl rfl rfl rfl rfl rfl fun _ => rfl)

/-! ## Upvalues -/

theorem findupval_respects {th level fresh : Nat} (unused : s.marked (.upval fresh) = none) :
    Respects s (s.findupval th level fresh).2 := by
  have created : Respects s (s.marknew (.upval fresh)) := Respects.marknew unused nofun
  unfold findupval
  simp only
  split
  · split
    · split
      · next isDead => exact changewhite_respects isDead id nofun
      · exact refl s
    · exact created.trans (of_same rfl rfl rfl rfl rfl rfl rfl fun _ => rfl)
  · exact created.trans (of_same rfl rfl rfl rfl rfl rfl rfl fun _ => rfl)

theorem freeupval_respects {u : Nat} (isDead : s.isdead (.upval u) = true) : Respects s (s.freeupval u) := by
  have colour : ∀ {r}, r ≠ .upval u → (s.freeupval u).colour r = s.colour r := fun {r} other => by
    rw [freeupval, colour_free, if_neg other]
    rfl
  refine ⟨rfl, rfl, rfl, rfl, ⟨[], rfl, fun _ => List.not_mem_nil⟩, fun _ => rfl, fun notUpval present => ⟨?_, rfl⟩,
    fun present => ?_, fun {r} _ live => ?_, fun _ traversable isDead => ?_, fun _ => .inl (colour (by rintro ⟨⟩)),
    fun {r} _ collects => ?_⟩
  · rwa [colour (notUpval u)]
  · rwa [@colour (.udata _) (by rintro ⟨⟩)] at present
  · refine (live_congr (colour fun same => ?_) rfl).2 live
    rw [same] at live
    rw [live.not_dead] at isDead
    cases isDead
  · exact (isdead_congr (colour fun same => (same ▸ traversable : GCRef.Traversable (.upval u))) rfl).trans isDead
  · refine (collects_congr (colour fun same => ?_) rfl rfl).symm.trans collects
    subst same
    have gone := isdead_iff.1 (collects_iff.1 collects).1
    rw [freeupval, colour_free, if_pos rfl] at gone
    cases gone

theorem linkupval_respects (s : State N) (u : Nat) : Respects s (s.linkupval u) := by
  have linked := Respects.linkroot (o := .upval u) s nofun
  unfold linkupval
  simp only
  split
  · split
    · next phase =>
      have black : Respects (s.linkroot (.upval u)) ((s.linkroot (.upval u)).gray2black (.upval u)) :=
        of_repaints (P := fun _ => True) (paint_repaints _ _ trivial) phase
      exact (linked.trans black).trans (barrier_respects _ _ _)
    · refine linked.trans (Respects.paint fun c _ => .inr ⟨current_ne_dead _, fun traversable => absurd traversable id, nofun⟩)
  · exact linked

theorem closeupval_respects (s : State N) (u : Nat) : Respects s (s.closeupval u) := by
  unfold closeupval
  split
  · next isDead => exact freeupval_respects isDead
  · have closed : Respects s (({ s with uvhead := s.uvhead.filter (· != u) } : State N).setUpval u (.closed (s.upvalValue u))) :=
      of_same rfl rfl rfl rfl rfl rfl rfl fun _ => rfl
    exact closed.trans (linkupval_respects _ u)

theorem closeLoop_respects (th level : Nat) (us : List Nat) : ∀ s : State N, Respects s (s.closeLoop th level us) := by
  induction us with
  | nil => exact refl
  | cons u us inductionHypothesis =>
    intro s
    unfold closeLoop
    split
    · exact ((Respects.setThread s th _).trans (closeupval_respects _ u)).trans (inductionHypothesis _)
    · exact refl s

theorem capture_respects {th : Nat} {captures : List Capture} (valid : Captures th s captures) :
    Respects s (s.capture th captures).2 := by
  induction valid with
  | nil => exact refl _
  | upvalue _ _ inductionHypothesis => exact inductionHypothesis
  | «local» _ unused _ inductionHypothesis => exact (findupval_respects unused).trans inductionHypothesis

theorem newupvals_respects {us : List Nat} (fresh : FreshUpvals s us) : Respects s (us.foldl newupval s) := by
  induction fresh with
  | nil => exact refl _
  | cons unused _ inductionHypothesis =>
    exact ((Respects.link unused nofun).trans (Respects.setUpval _ _ _)).trans inductionHypothesis

theorem setUpvalValue_respects (s : State N) (u : Nat) (v : TValue N) : Respects s (s.setUpvalValue u v) := by
  unfold setUpvalValue
  split
  · exact Respects.setUpval s u _
  · exact Respects.setThread s _ _

/-! ## Tables -/

theorem storeAt_respects (s : State N) (a : Nat) (insertion : TableM N Slot) (keys : List (TValue N))
    (v : Gafq.Table N → Slot → Option (TValue N)) : Respects s (s.storeAt a insertion keys v).2 := by
  have barriers : ∀ s : State N, Respects s (s.barrierkeys a keys) := foldl (fun s key => barriert_respects s a key) keys
  unfold storeAt
  split
  · exact Respects.setTable s a _
  · split
    · exact (Respects.setTable s a _).trans (barriers _)
    · exact ((Respects.setTable s a _).trans (barriers _)).trans (barriert_respects _ a _)

/-! ## All operations -/

theorem push_respects (s : State N) (th : Nat) (v : TValue N) : Respects s (s.push th v) := Respects.setThread s th _

theorem setSlot_respects (s : State N) (th i : Nat) (v : TValue N) : Respects s (s.setSlot th i v) :=
  Respects.setThread s th _

theorem newLclosure_respects (env p : Nat) {a : Nat} (unused : s.marked (.closure a) = none) :
    Respects s (s.newLclosure env p a) :=
  (Respects.link unused nofun).trans (Respects.setClosure _ _ _)

theorem createtable_respects (mem : Memory) (narray nhash : Nat) {a : Nat} (unused : s.marked (.table a) = none) :
    Respects s (s.createtable mem narray nhash a) := by
  have created : ∀ h, Respects s (s.newtable h a) := fun h => (Respects.link unused nofun).trans (Respects.setTable _ _ _)
  unfold State.createtable
  split
  · exact (created _).trans (push_respects _ _ _)
  · exact created _

theorem newuserdata_frame (s : State N) (env a : Nat) :
    ∃ swept unswept thread, s.newuserdata env a =
      { s with
        marked := Function.update s.marked (.udata a) (some (.white s.currentwhite))
        fixed := Function.update s.fixed (.udata a) false
        udata := Function.update s.udata a { env }, swept, unswept, thread } := by
  unfold newuserdata newudata push
  simp only
  rw [linkudata_frame]
  exact ⟨_, _, _, rfl⟩

theorem newuserdata_colour (s : State N) (env a : Nat) (r : GCRef) :
    (s.newuserdata env a).colour r = if r = .udata a then some (.white s.currentwhite) else s.colour r := by
  obtain ⟨swept, unswept, thread, same⟩ := newuserdata_frame s env a
  rw [same]
  exact Function.update_apply ..

/-- A new userdata is the one thing that `Respects` does not cover. -/
theorem Mutates.respects [GafqNumber N] (mutates : Mutates s s') :
    Respects s s' ∨ ∃ env a, s.marked (.udata a) = none ∧ s' = s.newuserdata env a := by
  cases mutates with
  | newuserdata _ unused => exact .inr ⟨_, _, unused, rfl⟩
  | createtable mem narray nhash unused => exact .inl (createtable_respects mem narray nhash unused)
  | newthread unused =>
    exact .inl (((Respects.link unused nofun).trans (Respects.setThread _ _ _)).trans (push_respects _ _ _))
  | newproto unused =>
    exact .inl (((Respects.link unused nofun).trans (Respects.setProto _ _ _)).trans (push_respects _ _ _))
  | registerlocalvar | indexupvalue | addproto => exact .inl ((Respects.setProto _ _ _).trans (objbarrier_respects _ _ _))
  | addk => exact .inl ((Respects.setProto _ _ _).trans (barrier_respects _ _ _))
  | pushcclosure _ _ unused =>
    left
    exact (((Respects.link unused nofun).trans (Respects.setClosure _ _ _)).trans (Respects.setThread _ _ _)).trans
      (push_respects _ _ _)
  | @opClosure env p a ra captures _ _ unused _ valid =>
    left
    have captured := (newLclosure_respects env p unused).trans (capture_respects valid)
    have running : (s.newLclosure env p a).running = s.running := by
      show (s.linkroot (.closure a)).running = s.running
      rw [linkroot_frame]
    unfold State.opClosure
    simp only [running]
    generalize (s.newLclosure env p a).capture s.running captures = result at captured ⊢
    exact (captured.trans (Respects.setClosure _ _ _)).trans (setSlot_respects _ _ _ _)
  | closeChunk _ _ _ unused fresh =>
    left
    have popped : Respects s (s.pop 1) := Respects.setThread _ _ _
    exact (((popped.trans (newLclosure_respects _ _ unused)).trans (newupvals_respects fresh)).trans (Respects.setClosure _ _ _)).trans (push_respects _ _ _)
  | pushlstr str unused => exact .inl ((newlstr_respects str unused).trans (push_respects _ _ _))
  | push | settop | setSlot | poscall => exact .inl (Respects.setThread _ _ _)
  | precall =>
    left
    unfold State.precall
    simp only
    split <;> exact Respects.setThread _ _ _
  | resume => exact .inl (of_same rfl rfl rfl rfl rfl rfl rfl fun _ => rfl)
  | settable | setlistItem => exact .inl (storeAt_respects _ _ _ _ _)
  | rawset mp mem =>
    left
    unfold State.rawset
    simp only
    split
    · exact (storeAt_respects s _ _ _ _).trans (Respects.setThread _ _ _)
    · exact storeAt_respects s _ _ _ _
  | rawseti mp mem n =>
    left
    unfold State.rawseti
    simp only
    split
    · exact (storeAt_respects s _ _ _ _).trans (Respects.setThread _ _ _)
    · exact storeAt_respects s _ _ _ _
  | opSetupval => exact .inl ((setUpvalValue_respects _ _ _).trans (barrier_respects _ _ _))
  | findupval _ _ unused => exact .inl (findupval_respects unused)
  | close => exact .inl (closeLoop_respects _ _ _ _)
  | setmetatableTable =>
    left
    unfold State.setmetatableTable
    simp only
    split
    · exact (Respects.setTable _ _ _).trans (objbarriert_respects _ _ _)
    · exact Respects.setTable _ _ _
  | @setmetatableUdata u mt =>
    left
    have stored : Respects s (s.setUdata u { s.udata u with metatable := mt }) := Respects.setUdata s u rfl
    unfold State.setmetatableUdata
    simp only
    split
    · exact stored.trans (objbarrier_respects _ _ _)
    · exact stored
  | setmetatableBasic => exact .inl (of_same rfl rfl rfl rfl rfl rfl rfl fun _ => rfl)
  | setfenvClosure => exact .inl ((Respects.setClosure _ _ _).trans (objbarrier_respects _ _ _))
  | @setfenvUdata u env =>
    have stored : Respects s (s.setUdata u { s.udata u with env }) := Respects.setUdata s u rfl
    exact .inl (stored.trans (objbarrier_respects _ _ _))
  | setfenvThread => exact .inl ((Respects.setThread _ _ _).trans (objbarrier_respects _ _ _))
  | replaceUpvalue =>
    exact .inl (((Respects.setClosure _ _ _).trans (barrier_respects _ _ _)).trans (Respects.setThread _ _ _))

end Gafq.GC.State
