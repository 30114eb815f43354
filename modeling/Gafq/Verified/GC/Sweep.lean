import Gafq.Verified.GC.Barriers
import Gafq.Verified.Buckets

/-! # The sweep

A sweep frees objects that are dead and makes all others white.  Nothing live refers to what is
freed, so the invariant survives; what has to be shown for each part of the sweep is that the lists
still hold all objects and that it leaves nothing with an old mark behind.
-/

namespace Gafq.GC.State

variable {N : Type} {s s' : State N} {o p r : GCRef} {pending : GCRef → GCRef → Prop}

/-! ## What a sweep may do -/

structure Reclaims (s s' : State N) : Prop where
  currentwhite : s'.currentwhite = s.currentwhite
  root : ∀ {r}, s'.Root r → s.Root r
  mainthread : s'.mainthread = s.mainthread
  tmudata : s'.tmudata = s.tmudata
  fixed : s'.fixed = s.fixed
  udata : s'.udata = s.udata
  tmGc : s'.tmGc = s.tmGc
  colour : ∀ r, s'.colour r = s.colour r ∨
    s'.colour r = some (.white s.currentwhite) ∧ (s.Live r ∨ s.colour r ≠ none ∧ r.IsString ∧ s.fixed r = true) ∨
    s'.colour r = none ∧ s.collects r = true
  fades : Fades s s'
  isOpen : ∀ {o}, s'.IsOpen o → s.IsOpen o

theorem isdead_congr (colour : s'.colour r = s.colour r) (currentwhite : s'.currentwhite = s.currentwhite) :
    s'.isdead r = s.isdead r := by
  unfold isdead
  rw [colour, currentwhite]

theorem collects_iff : s.collects r = true ↔ s.isdead r = true ∧ s.fixed r = false := by simp [collects]

theorem collects_congr (colour : s'.colour r = s.colour r) (currentwhite : s'.currentwhite = s.currentwhite)
    (fixed : s'.fixed = s.fixed) : s'.collects r = s.collects r := by
  unfold collects
  rw [isdead_congr colour currentwhite, fixed]

namespace Reclaims

theorem refl (s : State N) : Reclaims s s := ⟨rfl, id, rfl, rfl, rfl, rfl, rfl, fun _ => .inl rfl, .refl s, id⟩

theorem live (reclaims : Reclaims s s') (live : s.Live r) : s'.Live r := by
  obtain same | ⟨white, -⟩ | ⟨-, dead⟩ := reclaims.colour r
  · exact (live_congr same reclaims.currentwhite).2 live
  · exact live_of_white (reclaims.currentwhite ▸ white)
  · have notDead := live.not_dead
    rw [(collects_iff.1 dead).1] at notDead
    cases notDead

theorem live_before (reclaims : Reclaims s s') (live : s'.Live r) : s.Live r ∨ r.IsString := by
  obtain same | ⟨-, before | ⟨-, isString, -⟩⟩ | ⟨freed, -⟩ := reclaims.colour r
  · exact .inl ((live_congr same reclaims.currentwhite).1 live)
  · exact .inl before
  · exact .inr isString
  · exact absurd freed live.allocated

theorem trans {s₁ : State N} (first : Reclaims s s₁) (second : Reclaims s₁ s') : Reclaims s s' where
  currentwhite := second.currentwhite.trans first.currentwhite
  root isRoot := first.root (second.root isRoot)
  mainthread := second.mainthread.trans first.mainthread
  tmudata := second.tmudata.trans first.tmudata
  fixed := second.fixed.trans first.fixed
  udata := second.udata.trans first.udata
  tmGc := second.tmGc.trans first.tmGc
  fades := first.fades.trans second.fades
  isOpen isOpen := first.isOpen (second.isOpen isOpen)
  colour r := by
    obtain same | ⟨white, before⟩ | ⟨freed, dead⟩ := second.colour r
    · rw [same]
      exact first.colour r
    · rw [first.currentwhite] at white
      refine .inr (.inl ⟨white, ?_⟩)
      obtain same | ⟨-, before'⟩ | ⟨freed, -⟩ := first.colour r
      · rwa [live_congr same first.currentwhite, same, first.fixed] at before
      · exact before'
      · exact absurd freed (before.elim Live.allocated And.left)
    · refine .inr (.inr ⟨freed, ?_⟩)
      obtain same | ⟨white, -⟩ | ⟨-, dead'⟩ := first.colour r
      · rwa [collects_congr same first.currentwhite first.fixed] at dead
      · rw [← first.currentwhite] at white
        have notDead := (live_of_white white).not_dead
        rw [(collects_iff.1 dead).1] at notDead
        cases notDead
      · exact dead'

theorem allocated (reclaims : Reclaims s s') (present : s'.colour r ≠ none) : s.colour r ≠ none := by
  obtain same | ⟨-, before | ⟨before, -⟩⟩ | ⟨freed, -⟩ := reclaims.colour r
  · rwa [same] at present
  · exact before.allocated
  · exact before
  · exact absurd freed present

end Reclaims

theorem not_refers_of_isString (isString : o.IsString) : ¬ s.Refers o r := by
  cases o with
  | string a => exact id
  | udata | proto | closure | table | upval | thread => exact absurd isString id

theorem Consistent.reclaims (consistent : Consistent pending s) (reclaims : Reclaims s s') (owned : s'.Owned)
    (linked : s'.Linked) (clean : ∀ {r c}, s'.colour r = some c → c = .white s.currentwhite ∨ s'.Pending r)
    (phase : s'.gcstate ≠ .propagate ∧ s'.gcstate ≠ .pause) : Consistent nothing s' := by
  refine ⟨owned, linked, fun {o r} live after => ?_, fun isRoot => ?_, fun {u} member => ?_, ?_, fun {o} black isOpen => ?_,
    fun colour => ?_, (absurd · phase.1), (absurd · phase.1), fun either => ?_⟩
  · obtain before | isString := reclaims.live_before live
    · exact reclaims.live (consistent.closed before (reclaims.fades.refers after))
    · exact absurd after (not_refers_of_isString isString)
  · exact reclaims.live (consistent.root (reclaims.root isRoot))
  · exact reclaims.live (consistent.tmudata (reclaims.tmudata ▸ member))
  · rw [reclaims.fixed, reclaims.mainthread]
    exact consistent.fixed
  · obtain same | ⟨white, -⟩ | ⟨freed, -⟩ := reclaims.colour o
    · exact consistent.notOpen (same ▸ black) (reclaims.isOpen isOpen)
    · rw [white] at black
      cases black
    · rw [freed] at black
      cases black
  · rw [reclaims.currentwhite]
    exact clean colour
  · exact either.elim (absurd · phase.2) (absurd · phase.1)

/-! ## One object -/

/-- The colour of an object after the sweep. -/
def sweptColour (s : State N) (r : GCRef) : Option Colour :=
  if s.collects r then none else (s.colour r).map fun _ => .white s.currentwhite

theorem Consistent.sweptColour (consistent : Consistent pending s) (r : GCRef) :
    s.sweptColour r = s.colour r ∨
    s.sweptColour r = some (.white s.currentwhite) ∧ (s.Live r ∨ s.colour r ≠ none ∧ r.IsString ∧ s.fixed r = true) ∨
    s.sweptColour r = none ∧ s.collects r = true := by
  unfold State.sweptColour
  split
  · next collects => exact .inr (.inr ⟨rfl, collects⟩)
  · next keeps =>
    cases colour : s.colour r with
    | none => exact .inl rfl
    | some c =>
      refine .inr (.inl ⟨rfl, ?_⟩)
      by_cases dead : s.isdead r = true
      · have isFixed : s.fixed r = true := by
          by_contra notFixed
          exact keeps (collects_iff.2 ⟨dead, by simpa using notFixed⟩)
        obtain isString | rfl := consistent.fixed isFixed
        · exact .inr ⟨nofun, isString, isFixed⟩
        · exact .inl (consistent.root .mainthread)
      · exact .inl (live_of_not_dead (by simp [colour]) (by simpa using dead))

theorem sweptColour_white {c : Colour} (colour : s.sweptColour r = some c) : c = .white s.currentwhite := by
  unfold sweptColour at colour
  split at colour
  · cases colour
  · obtain ⟨-, -, same⟩ := Option.map_eq_some_iff.1 colour
    exact same.symm

theorem colour_free (s : State N) (o r : GCRef) : (s.free o).colour r = if r = o then none else s.colour r := by
  unfold colour free
  by_cases same : r = o
  · subst same
    simp
  · simp [same]

theorem colour_makewhite (s : State N) (o r : GCRef) :
    (s.makewhite o).colour r = if r = o then (s.colour o).map fun _ => .white s.currentwhite else s.colour r :=
  colour_paint s o r _

/-! ## Strings -/

/-- `sweepwholelist` of a bucket. -/
structure SweepsStrings (as kept : List Nat) (s s' : State N) : Prop where
  frame : s' = { s with marked := s'.marked }
  others : ∀ {r}, (∀ a ∈ as, r ≠ .string a) → s'.colour r = s.colour r
  swept : ∀ {a}, a ∈ as → s'.colour (.string a) = s.sweptColour (.string a)
  kept : ∀ {a}, a ∈ as → s'.colour (.string a) ≠ none → a ∈ kept

theorem sweptColour_congr (colour : s'.colour r = s.colour r) (currentwhite : s'.currentwhite = s.currentwhite)
    (fixed : s'.fixed = s.fixed) : s'.sweptColour r = s.sweptColour r := by
  unfold sweptColour collects
  rw [isdead_congr colour currentwhite, colour, currentwhite, fixed]

/-- An object is not swept twice with a different result. -/
theorem sweptColour_again (colour : s'.colour r = s.sweptColour r) (currentwhite : s'.currentwhite = s.currentwhite) :
    s'.sweptColour r = s.sweptColour r := by
  cases swept : s.sweptColour r with
  | none =>
    rw [swept] at colour
    simp [sweptColour, collects, isdead, colour]
  | some c =>
    obtain rfl := sweptColour_white swept
    have alive : ¬ s.currentwhite = !s.currentwhite := by cases s.currentwhite <;> decide
    rw [swept] at colour
    simp [sweptColour, collects, isdead, colour, currentwhite, alive]

theorem sweepstrings_spec (as : List Nat) : ∀ s : State N,
    SweepsStrings as (s.sweepstrings as).1 s (s.sweepstrings as).2 := by
  induction as with
  | nil => exact fun s => ⟨rfl, fun _ => rfl, nofun, nofun⟩
  | cons a as inductionHypothesis =>
    intro s
    -- one string is freed or made white, and the rest is swept
    have step : ∀ {s₁ : State N} {kept : List Nat}, s₁ = { s with marked := s₁.marked } →
        (∀ {r}, r ≠ .string a → s₁.colour r = s.colour r) → s₁.colour (.string a) = s.sweptColour (.string a) →
        (s₁.colour (.string a) ≠ none → a ∈ kept) → (∀ b ∈ (s₁.sweepstrings as).1, b ∈ kept) →
        SweepsStrings (a :: as) kept s (s₁.sweepstrings as).2 := by
      intro s₁ kept frame others swept isKept rest
      have currentwhite : s₁.currentwhite = s.currentwhite := by rw [frame]
      have fixed : s₁.fixed = s.fixed := by rw [frame]
      obtain ⟨frame', others', swept', kept'⟩ := inductionHypothesis s₁
      have here : (s₁.sweepstrings as).2.colour (.string a) = s.sweptColour (.string a) := by
        by_cases again : a ∈ as
        · rw [swept' again]
          exact sweptColour_again swept currentwhite
        · rw [others' fun b member same => again (by cases same; exact member), swept]
      refine ⟨by rw [frame', frame], fun {r} apart => ?_, fun {b} member => ?_, fun {b} member present => ?_⟩
      · rw [others' fun b member => apart b (List.mem_cons_of_mem _ member), others (apart a List.mem_cons_self)]
      · by_cases same : b = a
        · subst same
          exact here
        · have inRest := (List.mem_cons.1 member).resolve_left same
          rw [swept' inRest]
          exact sweptColour_congr (others (by simpa using same)) currentwhite fixed
      · by_cases inRest : b ∈ as
        · exact rest b (kept' inRest present)
        · obtain rfl := (List.mem_cons.1 member).resolve_right inRest
          refine isKept ?_
          rw [here, ← swept] at present
          exact present
    unfold sweepstrings
    split
    · next collects =>
      refine step rfl (fun other => ?_) ?_ (fun present => ?_) fun b member => member
      · rw [colour_free, if_neg other]
      · rw [colour_free, if_pos rfl, sweptColour, if_pos collects]
      · rw [colour_free, if_pos rfl] at present
        exact absurd rfl present
    · next keeps =>
      refine step rfl (fun other => ?_) ?_ (fun _ => List.mem_cons_self) fun b member => List.mem_cons_of_mem _ member
      · rw [colour_makewhite, if_neg other]
      · rw [colour_makewhite, if_pos rfl, sweptColour, if_neg keeps]

theorem sweepstrings_kept (as : List Nat) : ∀ {s : State N}, as.Nodup →
    (s.sweepstrings as).1.Sublist as ∧ ∀ a ∈ (s.sweepstrings as).1, s.collects (.string a) = false := by
  induction as with
  | nil => exact fun _ => ⟨List.Sublist.slnil, nofun⟩
  | cons a as inductionHypothesis =>
    intro s nodup
    obtain ⟨notMember, nodup'⟩ := List.nodup_cons.1 nodup
    have apart : ∀ {b}, b ∈ as → GCRef.string b ≠ .string a := fun member same => by
      cases same
      exact notMember member
    unfold sweepstrings
    split
    · obtain ⟨sublist, keeps⟩ := @inductionHypothesis (s.free (.string a)) nodup'
      refine ⟨sublist.cons a, fun b member => ?_⟩
      have kept : (s.free (.string a)).colour (.string b) = s.colour (.string b) := by
        rw [colour_free, if_neg (apart (sublist.subset member))]
      rw [← keeps b member]
      exact (collects_congr kept rfl rfl).symm
    · next keepsHead =>
      obtain ⟨sublist, keeps⟩ := @inductionHypothesis (s.makewhite (.string a)) nodup'
      refine ⟨sublist.cons_cons a, fun b member => ?_⟩
      cases List.mem_cons.1 member with
      | inl head =>
        subst head
        exact Bool.eq_false_iff.2 keepsHead
      | inr tail =>
        have kept : (s.makewhite (.string a)).colour (.string b) = s.colour (.string b) := by
          rw [colour_makewhite, if_neg (apart (sublist.subset tail))]
        rw [← keeps b tail]
        exact (collects_congr kept rfl rfl).symm

/-- Live objects stay live. -/
def Spares (s s' : State N) : Prop := ∀ {r}, s.Live r → s'.Live r

theorem sweepbucket_consistent (consistent : Consistent pending s) (phase : s.gcstate = .sweepstring) :
    Consistent nothing s.sweepbucket ∧ Reclaims s s.sweepbucket ∧ s.sweepbucket.gcstate = .sweepstring := by
  obtain ⟨frame, others, swept, kept⟩ := sweepstrings_spec (s.strt.getD s.sweepstrgc []) s
  have strings := consistent.linked.strings
  have bucketNodup : (s.strt.getD s.sweepstrgc []).Nodup := by
    by_cases inside : s.sweepstrgc < s.strt.length
    · have here : s.strt.getD s.sweepstrgc [] = s.strt[s.sweepstrgc] := by simp [List.getD, inside]
      rw [here]
      exact strings.sublist (List.sublist_flatten_of_mem (List.getElem_mem inside))
    · simp [List.getD, inside]
  obtain ⟨sublist, keeps⟩ := @sweepstrings_kept _ (s.strt.getD s.sweepstrgc []) s bucketNodup
  have result : s.sweepbucket =
      { (s.sweepstrings (s.strt.getD s.sweepstrgc [])).2 with
        strt := (s.sweepstrings (s.strt.getD s.sweepstrgc [])).2.strt.set
          (s.sweepstrings (s.strt.getD s.sweepstrgc [])).2.sweepstrgc (s.sweepstrings (s.strt.getD s.sweepstrgc [])).1
        sweepstrgc := (s.sweepstrings (s.strt.getD s.sweepstrgc [])).2.sweepstrgc + 1 } := rfl
  rw [result]
  generalize s.sweepstrings (s.strt.getD s.sweepstrgc []) = swept₀ at frame others swept kept sublist keeps
  obtain ⟨kept₀, s₁⟩ := swept₀
  simp only at frame others swept kept sublist keeps ⊢
  have colour : ∀ {r}, s₁.colour r = s.colour r ∨ s₁.colour r = s.sweptColour r ∧
      ∃ a, r = .string a ∧ a ∈ s.strt.getD s.sweepstrgc [] := by
    intro r
    by_cases inBucket : ∃ a, r = .string a ∧ a ∈ s.strt.getD s.sweepstrgc []
    · obtain ⟨a, rfl, member⟩ := inBucket
      exact .inr ⟨swept member, a, rfl, member⟩
    · exact .inl (others fun a member same => inBucket ⟨a, same, member⟩)
  generalize s₁.marked = marked at frame
  subst frame
  have reclaims : Reclaims s { s with marked, strt := s.strt.set s.sweepstrgc kept₀, sweepstrgc := s.sweepstrgc + 1 } := by
    refine ⟨rfl, fun root => root.congr rfl rfl rfl rfl, rfl, rfl, rfl, rfl, rfl, fun r => ?_,
      .of_eq (by funext p r; cases p <;> rfl) rfl rfl rfl rfl, id⟩
    obtain same | ⟨same, -⟩ := @colour r
    · exact .inl same
    · have which := consistent.sweptColour r
      rw [← same] at which
      exact which
  have owned := consistent.owned
  refine ⟨consistent.reclaims reclaims ?_ ?_ (fun {r c} isColour => ?_) ?_, reclaims, phase⟩
  · refine ⟨fun {a} present => mem_flatten_set (owned.string (reclaims.allocated present)) (kept · present),
      fun present => owned.udata (reclaims.allocated present),
      fun traversable present => owned.traversable traversable (reclaims.allocated present),
      fun present => owned.closedUpval (reclaims.allocated present), fun {u th level} present kind => ?_,
      fun present => owned.openNodup (reclaims.allocated present), fun {th u} present member => ?_, ?_⟩
    · obtain ⟨inUvhead, inList, thread⟩ := owned.openUpval (reclaims.allocated present) kind
      refine ⟨inUvhead, inList, ?_⟩
      obtain same | ⟨-, a, isString, -⟩ := @colour (.thread th)
      · exact same ▸ thread
      · cases isString
    · obtain ⟨here, level, kind⟩ := owned.openList (reclaims.allocated present) member
      refine ⟨?_, level, kind⟩
      obtain same | ⟨-, a, isString, -⟩ := @colour (.upval u)
      · exact same ▸ here
      · cases isString
    · have := owned.buckets
      simpa using this
  · refine ⟨consistent.linked.nodup, fun {o} member => ?_, consistent.linked.notString,
      strings.sublist (flatten_set_sublist sublist), fun {a} member => ?_⟩
    · obtain ⟨present, notOpen⟩ := consistent.linked.allocated member
      refine ⟨?_, notOpen⟩
      obtain same | ⟨-, a, rfl, -⟩ := @colour o
      · exact same ▸ present
      · exact absurd member consistent.linked.notString
    · have present := consistent.linked.interned ((flatten_set_sublist sublist).subset member)
      obtain same | ⟨same, b, isSame, inBucket⟩ := @colour (.string a)
      · exact same ▸ present
      · cases isSame
        have isKept := keeps a (mem_of_mem_flatten_set strings inBucket member)
        obtain ⟨c, isColour⟩ := Option.ne_none_iff_exists'.1 present
        refine ne_of_eq_of_ne same ?_
        rw [State.sweptColour, isKept, isColour]
        nofun
  · obtain same | ⟨same, -⟩ := @colour r
    · refine (consistent.clean (same ▸ isColour)).elim .inl fun isPending => ?_
      unfold Pending at isPending ⊢
      simp only [phase] at isPending ⊢
      obtain ahead | ⟨a, rfl, member⟩ := isPending
      · exact .inr (.inl (ahead.mono id id fun _ kind => kind))
      · rw [List.drop_set_of_lt (Nat.lt_succ_self _)]
        by_cases inBucket : a ∈ s.strt.getD s.sweepstrgc []
        · exact .inl (sweptColour_white (swept inBucket ▸ isColour))
        · refine .inr (.inr ⟨a, rfl, ?_⟩)
          by_cases inside : s.sweepstrgc < s.strt.length
          · rw [List.drop_eq_getElem_cons inside, List.flatten_cons] at member
            have here : s.strt.getD s.sweepstrgc [] = s.strt[s.sweepstrgc] := by simp [List.getD, inside]
            exact (List.mem_append.1 member).resolve_left (here ▸ inBucket)
          · rw [List.drop_eq_nil_of_le (by omega)] at member
            cases member
    · exact .inl (sweptColour_white (same ▸ isColour))
  · simp only [phase]
    exact ⟨nofun, nofun⟩

/-! ## Open upvalues of a thread -/

structure SweepsUpvals (us kept : List Nat) (s s' : State N) : Prop where
  frame : s' = { s with marked := s'.marked, uvhead := s'.uvhead }
  others : ∀ {r}, (∀ u ∈ us, r ≠ .upval u) → s'.colour r = s.colour r
  swept : ∀ {u}, u ∈ us → s'.colour (.upval u) = s.sweptColour (.upval u)
  kept : kept = us.filter fun u => !s.collects (.upval u)
  uvhead : ∀ {v}, v ∈ s'.uvhead ↔ v ∈ s.uvhead ∧ ¬ (v ∈ us ∧ s.collects (.upval v) = true)

theorem sweepupvals_spec (us : List Nat) : ∀ {s : State N}, us.Nodup →
    SweepsUpvals us (s.sweepupvals us).1 s (s.sweepupvals us).2 := by
  induction us with
  | nil => exact fun {s} _ => ⟨rfl, fun _ => rfl, nofun, rfl, by simp [sweepupvals]⟩
  | cons u us inductionHypothesis =>
    intro s nodup
    obtain ⟨notMember, nodup'⟩ := List.nodup_cons.1 nodup
    -- one upvalue is freed or made white, and the rest is swept
    have step : ∀ {s₁ : State N}, s₁ = { s with marked := s₁.marked, uvhead := s₁.uvhead } →
        (∀ {r}, r ≠ .upval u → s₁.colour r = s.colour r) → s₁.colour (.upval u) = s.sweptColour (.upval u) →
        (∀ {v}, v ∈ s₁.uvhead ↔ v ∈ s.uvhead ∧ ¬ (v = u ∧ s.collects (.upval v) = true)) →
        SweepsUpvals (u :: us) ((u :: us).filter fun u => !s.collects (.upval u)) s (s₁.sweepupvals us).2 ∧
          (s₁.sweepupvals us).1 = us.filter fun u => !s.collects (.upval u) := by
      intro s₁ frame others swept uvhead
      have currentwhite : s₁.currentwhite = s.currentwhite := by rw [frame]
      have fixed : s₁.fixed = s.fixed := by rw [frame]
      have same : ∀ {v}, v ∈ us → s₁.colour (.upval v) = s.colour (.upval v) := by
        intro v member
        refine others fun isSame => notMember ?_
        cases isSame
        exact member
      obtain ⟨frame', others', swept', kept', uvhead'⟩ := @inductionHypothesis s₁ nodup'
      refine ⟨⟨by rw [frame', frame], fun {r} apart => ?_, fun {v} member => ?_, rfl, fun {v} => ?_⟩, ?_⟩
      · rw [others' fun b member => apart b (List.mem_cons_of_mem _ member), others (apart u List.mem_cons_self)]
      · cases List.mem_cons.1 member with
        | inl head =>
          subst head
          rw [others' fun b member isSame => notMember (by cases isSame; exact member), swept]
        | inr tail =>
          rw [swept' tail]
          exact sweptColour_congr (same tail) currentwhite fixed
      · rw [uvhead', uvhead, List.mem_cons]
        constructor
        · rintro ⟨⟨inList, notHead⟩, notTail⟩
          refine ⟨inList, ?_⟩
          rintro ⟨rfl | tail, collects⟩
          · exact notHead ⟨rfl, collects⟩
          · exact notTail ⟨tail, (collects_congr (same tail) currentwhite fixed).trans collects⟩
        · rintro ⟨inList, notSwept⟩
          refine ⟨⟨inList, fun ⟨head, collects⟩ => notSwept ⟨.inl head, collects⟩⟩, fun ⟨tail, collects⟩ => ?_⟩
          exact notSwept ⟨.inr tail, (collects_congr (same tail) currentwhite fixed).symm.trans collects⟩
      · rw [kept']
        refine List.filter_congr fun v member => ?_
        rw [collects_congr (same member) currentwhite fixed]
    unfold sweepupvals
    split
    · next collects =>
      obtain ⟨sweeps, rest⟩ := @step (s.freeupval u) rfl (fun other => by
          simp only [freeupval, colour_free, if_neg other]
          rfl)
        (by rw [freeupval, colour_free, if_pos rfl, sweptColour, if_pos collects])
        (fun {v} => by
          simp only [freeupval, free, List.mem_filter, bne_iff_ne, ne_eq]
          refine and_congr_right fun _ => ⟨fun other both => other both.1, fun notBoth isSame => notBoth ⟨isSame, ?_⟩⟩
          rw [isSame]
          exact collects)
      rw [rest]
      simp only [List.filter_cons, collects] at sweeps
      exact sweeps
    · next keeps =>
      obtain ⟨sweeps, rest⟩ := @step (s.makewhite (.upval u)) rfl (fun other => by rw [colour_makewhite, if_neg other])
        (by rw [colour_makewhite, if_pos rfl, sweptColour, if_neg keeps])
        (fun {v} => ⟨fun member => ⟨member, fun both => keeps (both.1 ▸ both.2)⟩, And.left⟩)
      simp only [rest]
      simp only [List.filter_cons, Bool.eq_false_iff.2 keeps] at sweeps
      exact sweeps

/-- The list of open upvalues is no reference of a thread. -/
theorem refers_openupval {thread : Nat → ThreadObject N} {uvhead : List Nat} {marked : GCRef → Option Colour}
    (same : ∀ a, ∃ openupval, thread a = { s.thread a with openupval })
    (refers : ({ s with thread, uvhead, marked } : State N).Refers o r) : s.Refers o r := by
  cases o with
  | thread a =>
    obtain ⟨openupval, thread⟩ := same a
    simp only [Refers, thread] at refers
    exact refers
  | upval u =>
    simp only [Refers, upvalValue] at refers ⊢
    cases kind : s.upval u with
    | closed v => simpa only [kind] using refers
    | inStack th level =>
      obtain ⟨openupval, thread⟩ := same th
      simp only [kind, thread] at refers ⊢
      exact refers
  | string | udata | proto | closure | table => exact refers

/-- What the sweep of the open upvalues of a thread leaves. -/
structure SweptThread (th : Nat) (s s' : State N) : Prop where
  consistent : Consistent nothing s'
  reclaims : Reclaims s s'
  gcstate : s'.gcstate = s.gcstate
  swept : s'.swept = s.swept
  unswept : s'.unswept = s.unswept
  colour : s'.colour (.thread th) = s.colour (.thread th)
  fixed : s'.fixed = s.fixed
  uvhead : ∀ {v}, v ∈ s'.uvhead → v ∈ s.uvhead
  white : ∀ {u}, u ∈ (s'.thread th).openupval → s'.colour (.upval u) = some (.white s'.currentwhite)

theorem sweepopenupval_swept {th : Nat} (consistent : Consistent nothing s) (phase : s.gcstate = .sweep)
    (present : s.colour (.thread th) ≠ none) : SweptThread th s (s.sweepopenupval (.thread th)) := by
  have owned := consistent.owned
  obtain ⟨frame, others, swept, kept, uvhead⟩ := sweepupvals_spec (s.thread th).openupval (@Owned.openNodup _ s owned th present)
  have result : s.sweepopenupval (.thread th) = (s.sweepupvals (s.thread th).openupval).2.setThread th
      { (s.sweepupvals (s.thread th).openupval).2.thread th with
        openupval := (s.sweepupvals (s.thread th).openupval).1 } := rfl
  rw [result]
  generalize s.sweepupvals (s.thread th).openupval = swept₀ at frame others swept kept uvhead
  obtain ⟨kept₀, s₁⟩ := swept₀
  simp only at frame others swept kept uvhead ⊢
  -- upvalues of other threads are not touched
  have mine : ∀ {u th' level}, u ∈ (s.thread th).openupval → s.upval u = .inStack th' level → th' = th := by
    intro u th' level member kind
    obtain ⟨-, level', kind'⟩ := owned.openList present member
    rw [kind] at kind'
    cases kind'
    rfl
  have colour : ∀ {r}, s₁.colour r = s.colour r ∨ s₁.colour r = s.sweptColour r ∧
      ∃ u, r = .upval u ∧ u ∈ (s.thread th).openupval := by
    intro r
    by_cases inList : ∃ u, r = .upval u ∧ u ∈ (s.thread th).openupval
    · obtain ⟨u, rfl, member⟩ := inList
      exact .inr ⟨swept member, u, rfl, member⟩
    · exact .inl (others fun u member same => inList ⟨u, same, member⟩)
  have elsewhere : ∀ a, s₁.colour (.thread a) = s.colour (.thread a) := fun a => others fun u _ => by rintro ⟨⟩
  generalize s₁.marked = marked at frame
  generalize s₁.uvhead = uvhead' at frame uvhead
  subst frame
  have thread : ∀ a, ∃ openupval, Function.update s.thread th { s.thread th with openupval := kept₀ } a =
      { s.thread a with openupval } := by
    intro a
    by_cases same : a = th
    · subst same
      exact ⟨kept₀, by simp⟩
    · exact ⟨(s.thread a).openupval, by simp [same]⟩
  have reclaims : Reclaims s { s with
      marked, uvhead := uvhead', thread := Function.update s.thread th { s.thread th with openupval := kept₀ } } := by
    refine ⟨rfl, fun root => root.congr rfl rfl rfl rfl, rfl, rfl, rfl, rfl, rfl, fun r => ?_,
      .of_openupval (refers_openupval thread) rfl rfl rfl thread, id⟩
    obtain same | ⟨same, -⟩ := @colour r
    · exact .inl same
    · have which := consistent.sweptColour r
      rw [← same] at which
      exact which
  have alive : ∀ {u}, u ∈ (s.thread th).openupval → s.collects (.upval u) = false →
      ({ s with marked, uvhead := uvhead' } : State N).colour (.upval u) = some (.white s.currentwhite) := by
    intro u member keeps
    obtain ⟨c, isColour⟩ := Option.ne_none_iff_exists'.1 (owned.openList present member).1
    rw [swept member, sweptColour, keeps, isColour]
    rfl
  refine ⟨consistent.reclaims reclaims ?_ ?_ (fun {r c} isColour => ?_) ?_, reclaims, rfl, rfl, rfl,
    elsewhere th, rfl, fun member => (uvhead.1 member).1, fun {u} member => ?_⟩
  · refine ⟨fun present => owned.string (reclaims.allocated present),
      fun present => owned.udata (reclaims.allocated present),
      fun traversable present => owned.traversable traversable (reclaims.allocated present),
      fun present => owned.closedUpval (reclaims.allocated present), fun {u th' level} present' kind => ?_,
      fun {th'} present' => ?_, fun {th' u} present' member => ?_, owned.buckets⟩
    · obtain ⟨inUvhead, inList, thread'⟩ := owned.openUpval (reclaims.allocated present') kind
      have notCollected : ¬ (u ∈ (s.thread th).openupval ∧ s.collects (.upval u) = true) := by
        rintro ⟨member, collects⟩
        refine present' ((swept member).trans ?_)
        rw [sweptColour, if_pos collects]
      refine ⟨uvhead.2 ⟨inUvhead, notCollected⟩, ?_, fun freed => thread' ((elsewhere _).symm.trans freed)⟩
      simp only [setThread]
      by_cases same : th' = th
      · subst same
        rw [Function.update_self, kept]
        refine List.mem_filter.2 ⟨inList, ?_⟩
        simpa [inList] using notCollected
      · rw [Function.update_of_ne same]
        exact inList
    · simp only [setThread]
      by_cases same : th' = th
      · subst same
        rw [Function.update_self, kept]
        exact (owned.openNodup present).filter _
      · rw [Function.update_of_ne same]
        exact owned.openNodup (reclaims.allocated present')
    · simp only [setThread] at member
      by_cases same : th' = th
      · subst same
        rw [Function.update_self, kept, List.mem_filter] at member
        have here := alive member.1 (by simpa using member.2)
        exact ⟨fun freed => (by cases here.symm.trans freed), (owned.openList present member.1).2⟩
      · rw [Function.update_of_ne same] at member
        obtain ⟨here, level, kind⟩ := owned.openList (reclaims.allocated present') member
        refine ⟨?_, level, kind⟩
        obtain unchanged | ⟨-, v, isSame, inList⟩ := @colour (.upval u)
        · exact unchanged ▸ here
        · cases isSame
          exact absurd (mine inList kind) same
  · refine ⟨consistent.linked.nodup, fun {o} member => ?_, consistent.linked.notString, consistent.linked.strings,
      fun {a} member => ?_⟩
    · obtain ⟨here, notOpen⟩ := consistent.linked.allocated member
      refine ⟨?_, notOpen⟩
      obtain unchanged | ⟨-, u, rfl, inList⟩ := @colour o
      · exact unchanged ▸ here
      · obtain ⟨-, level, kind⟩ := owned.openList present inList
        exact absurd ⟨u, th, level, rfl, kind⟩ notOpen
    · obtain unchanged | ⟨-, u, isUpval, -⟩ := @colour (.string a)
      · exact unchanged ▸ consistent.linked.interned member
      · cases isUpval
  · obtain unchanged | ⟨same, -⟩ := @colour r
    · refine (consistent.clean (unchanged ▸ isColour)).imp id fun isPending => ?_
      exact isPending.mono rfl id id (fun _ _ => id) fun _ kind => kind
    · exact .inl (sweptColour_white (same ▸ isColour))
  · simp only [phase]
    constructor <;> rintro ⟨⟩
  · simp only [setThread, Function.update_self, kept, List.mem_filter] at member
    exact alive member.1 (by simpa using member.2)

/-! ## Freeing a thread -/

theorem linkroot_rootgc (s : State N) (o : GCRef) : (s.linkroot o).rootgc = o :: s.rootgc := by
  unfold linkroot rootgc
  cases swept : s.swept with
  | nil => simp
  | cons p rest => simp

theorem linkroot_frame (s : State N) (o : GCRef) :
    s.linkroot o = { s with swept := (s.linkroot o).swept, unswept := (s.linkroot o).unswept } := by
  unfold linkroot
  split <;> rfl

theorem mem_unswept_linkroot (o : GCRef) (member : p ∈ s.unswept) : p ∈ (s.linkroot o).unswept := by
  unfold linkroot
  split
  · exact List.mem_cons_of_mem _ member
  · exact member

theorem swept_linkroot (s : State N) (o : GCRef) : s.swept.length ≤ (s.linkroot o).swept.length := by
  unfold linkroot
  split
  · exact le_refl _
  · exact Nat.le_succ _

/-- The upvalues in the list have been closed; their colours are as they were. -/
structure Closes (us : List Nat) (s s' : State N) : Prop where
  frame : s' = { s with
    upval := s'.upval, uvhead := s'.uvhead, swept := s'.swept, unswept := s'.unswept, thread := s'.thread }
  upval : ∀ u, s'.upval u = if u ∈ us then .closed (s.upvalValue u) else s.upval u
  uvhead : ∀ {v}, v ∈ s'.uvhead ↔ v ∈ s.uvhead ∧ v ∉ us
  thread : ∀ a, ∃ openupval, s'.thread a = { s.thread a with openupval }
  rootgc : s'.rootgc.Perm (us.map .upval ++ s.rootgc)
  unswept : ∀ {o}, o ∈ s.unswept → o ∈ s'.unswept
  swept : s.swept.length ≤ s'.swept.length

theorem closes_nil (s : State N) : Closes [] s s :=
  ⟨rfl, by simp, by simp, fun a => ⟨(s.thread a).openupval, rfl⟩, List.Perm.refl _, id, le_refl _⟩

theorem Closes.upvalValue {us : List Nat} (closes : Closes us s s') (u : Nat) : s'.upvalValue u = s.upvalValue u := by
  unfold State.upvalValue
  rw [closes.upval u]
  by_cases member : u ∈ us
  · simp only [if_pos member, State.upvalValue]
  · rw [if_neg member]
    cases s.upval u with
    | closed v => rfl
    | inStack th level =>
      obtain ⟨openupval, thread⟩ := closes.thread th
      simp only [thread]

theorem closeLoop_white (th : Nat) (us : List Nat) : ∀ {s : State N}, us.Nodup → (s.thread th).openupval = us →
    (∀ u ∈ us, s.colour (.upval u) = some (.white s.currentwhite) ∧ ∃ level, s.upval u = .inStack th level) →
    Closes us s (s.closeLoop th 0 us) ∧ (∀ a, a ≠ th → (s.closeLoop th 0 us).thread a = s.thread a) := by
  induction us with
  | nil => exact fun {s} _ _ _ => ⟨closes_nil s, fun _ _ => rfl⟩
  | cons u us inductionHypothesis =>
    intro s nodup openupval white
    obtain ⟨notMember, nodup'⟩ := List.nodup_cons.1 nodup
    obtain ⟨isWhite, level, kind⟩ := white u List.mem_cons_self
    have above : s.atOrAbove 0 u = true := by simp [atOrAbove, State.level, kind]
    have notDead : s.isdead (.upval u) = false := by
      rw [isdead, isWhite]
      simp
    have notGray : s.isgray (.upval u) = false := by simp [isgray, isWhite]
    -- the state after the first iteration
    have step : s.closeLoop th 0 (u :: us) = ((({ s with
        thread := Function.update s.thread th { s.thread th with openupval := us }
        uvhead := s.uvhead.filter (· != u)
        upval := Function.update s.upval u (.closed (s.upvalValue u)) } : State N).linkroot (.upval u))).closeLoop th 0 us := by
      simp only [closeLoop, above, if_true]
      congr 1
      have sameDead : (s.setThread th { s.thread th with openupval := us }).isdead (.upval u) = false := notDead
      have value : (s.setThread th { s.thread th with openupval := us }).upvalValue u = s.upvalValue u := by
        unfold upvalValue
        simp only [setThread, kind, Function.update_self]
      simp only [closeupval, sameDead, value, Bool.false_eq_true, if_false, linkupval]
      rw [if_neg]
      · rfl
      · rw [linkroot_frame]
        exact Bool.eq_false_iff.1 notGray
    rw [step]
    generalize start : ({ s with
        thread := Function.update s.thread th { s.thread th with openupval := us }
        uvhead := s.uvhead.filter (· != u)
        upval := Function.update s.upval u (.closed (s.upvalValue u)) } : State N) = s₁
    have frame : s₁ = { s with thread := s₁.thread, uvhead := s₁.uvhead, upval := s₁.upval } := by rw [← start]
    have linked := linkroot_frame s₁ (.upval u)
    have rootgc := linkroot_rootgc s₁ (.upval u)
    have unswept : ∀ {o}, o ∈ s₁.unswept → o ∈ (s₁.linkroot (.upval u)).unswept := mem_unswept_linkroot (.upval u)
    have longer := swept_linkroot s₁ (.upval u)
    generalize s₁.linkroot (.upval u) = s₂ at linked rootgc unswept longer
    have same : ∀ {v}, v ∈ us → v ≠ u := fun member isSame => notMember (isSame ▸ member)
    have thread₂ : s₂.thread = Function.update s.thread th { s.thread th with openupval := us } := by
      rw [linked, ← start]
    have upval₂ : s₂.upval = Function.update s.upval u (.closed (s.upvalValue u)) := by rw [linked, ← start]
    have thread : ∀ a, ∃ openupval, s₂.thread a = { s.thread a with openupval } := by
      intro a
      rw [thread₂]
      by_cases isSame : a = th
      · subst isSame
        exact ⟨us, by simp⟩
      · exact ⟨(s.thread a).openupval, by simp [isSame]⟩
    have value : ∀ {v}, v ≠ u → s₂.upvalValue v = s.upvalValue v := by
      intro v other
      unfold upvalValue
      rw [upval₂, Function.update_of_ne other]
      cases s.upval v with
      | closed w => rfl
      | inStack th' level' =>
        obtain ⟨openupval, isSame⟩ := thread th'
        simp only [isSame]
    obtain ⟨closes, others⟩ := @inductionHypothesis s₂ nodup' (by rw [thread₂, Function.update_self]) fun v member => by
      obtain ⟨isWhite', level', kind'⟩ := white v (List.mem_cons_of_mem _ member)
      refine ⟨?_, level', by rw [upval₂, Function.update_of_ne (same member), kind']⟩
      rw [linked, ← start]
      exact isWhite'
    refine ⟨⟨?_, fun v => ?_, fun {v} => ?_, fun a => ?_, ?_, fun member => ?_, ?_⟩, fun a other => ?_⟩
    · rw [closes.frame, linked, frame]
    · rw [closes.upval v]
      by_cases isSame : v = u
      · subst isSame
        rw [if_neg notMember, if_pos List.mem_cons_self, upval₂, Function.update_self]
      · simp only [List.mem_cons, isSame, false_or, value isSame, upval₂, Function.update_of_ne isSame]
    · rw [closes.uvhead, linked, ← start, List.mem_filter, List.mem_cons, not_or, and_assoc, bne_iff_ne]
    · obtain ⟨openupval, first⟩ := thread a
      obtain ⟨openupval', second⟩ := closes.thread a
      exact ⟨openupval', by rw [second, first]⟩
    · have before : s₁.rootgc = s.rootgc := by rw [← start]; rfl
      refine closes.rootgc.trans ?_
      rw [rootgc, before]
      exact List.perm_middle
    · refine closes.unswept (unswept ?_)
      rw [← start]
      exact member
    · rw [← start] at longer
      exact longer.trans closes.swept
    · rw [others a other, thread₂, Function.update_of_ne other]

/-! ## One step along `rootgc` -/

/-- The object at the position of the sweep is to be freed, and its open upvalues `us` have been closed. -/
structure Frees (us : List Nat) (o : GCRef) (rest : List GCRef) (s s' : State N) : Prop where
  phase : s.gcstate = .sweep
  unswept : s.unswept = o :: rest
  collects : s.collects o = true
  closes : Closes us { s with unswept := rest } s'
  others : ∀ a, o ≠ .thread a → s'.thread a = s.thread a
  nodup : us.Nodup
  mine : ∀ {u}, u ∈ us → s.colour (.upval u) = some (.white s.currentwhite) ∧
    ∃ th level, o = .thread th ∧ s.upval u = .inStack th level
  all : ∀ {u th level}, s.colour (.upval u) ≠ none → s.upval u = .inStack th level → o = .thread th → u ∈ us

namespace Frees

variable {us : List Nat} {rest : List GCRef} {u th level : Nat} {c : Colour}

theorem frame (frees : Frees us o rest s s') : s' = { s with
    unswept := s'.unswept, swept := s'.swept, upval := s'.upval, uvhead := s'.uvhead, thread := s'.thread } :=
  frees.closes.frame

theorem colour (frees : Frees us o rest s s') (r : GCRef) : (s'.free o).colour r = if r = o then none else s.colour r := by
  rw [colour_free, frees.frame]
  rfl

theorem kept (frees : Frees us o rest s s') (other : r ≠ o) : (s'.free o).colour r = s.colour r := by
  rw [frees.colour, if_neg other]

theorem gone (frees : Frees us o rest s s') (present : (s'.free o).colour r ≠ none) : r ≠ o ∧ s.colour r ≠ none := by
  rw [frees.colour] at present
  by_cases self : r = o
  · rw [if_pos self] at present
    exact absurd rfl present
  · rw [if_neg self] at present
    exact ⟨self, present⟩

theorem whole (frees : Frees us o rest s s') : s.rootgc = s.swept ++ o :: rest := by rw [State.rootgc, frees.unswept]

theorem mem_rootgc (frees : Frees us o rest s s') (member : r ∈ s.rootgc) (other : r ≠ o) : r ∈ (s'.free o).rootgc := by
  refine frees.closes.rootgc.mem_iff.2 (List.mem_append_right _ ?_)
  rw [frees.whole] at member
  simpa [State.rootgc, other] using member

theorem upval (frees : Frees us o rest s s') (u : Nat) :
    (s'.free o).upval u = if u ∈ us then .closed (s.upvalValue u) else s.upval u := frees.closes.upval u

theorem thread (frees : Frees us o rest s s') (other : o ≠ .thread th) : (s'.free o).thread th = s.thread th :=
  frees.others th other

/-- An upvalue that is still open is none of those that were closed. -/
theorem isOpen (frees : Frees us o rest s s') (opened : (s'.free o).IsOpen r) : s.IsOpen r ∧ ∀ u, r = .upval u → u ∉ us := by
  obtain ⟨u, th, level, rfl, kind⟩ := opened
  rw [frees.upval] at kind
  by_cases member : u ∈ us
  · rw [if_pos member] at kind
    cases kind
  · rw [if_neg member] at kind
    refine ⟨⟨u, th, level, rfl, kind⟩, fun v same => ?_⟩
    cases same
    exact member

theorem notMine (frees : Frees us o rest s s') (kind : s.upval u = .inStack th level) (other : o ≠ .thread th) : u ∉ us := by
  intro inList
  obtain ⟨-, th', level', isThread, kind'⟩ := frees.mine inList
  rw [kind] at kind'
  cases kind'
  exact other isThread

theorem refers (frees : Frees us o rest s s') (after : (s'.free o).Refers p r) : s.Refers p r := by
  cases p with
  | thread a =>
    obtain ⟨openupval, same⟩ := frees.closes.thread a
    simp only [Refers, free, same] at after
    exact after
  | upval u =>
    have value : (s'.free o).upvalValue u = s.upvalValue u := frees.closes.upvalValue u
    simp only [Refers, value] at after
    exact after
  | string | udata | proto | closure | table =>
    rw [frees.frame] at after
    exact after

theorem reclaims (frees : Frees us o rest s s') : Reclaims s (s'.free o) := by
  refine ⟨by rw [frees.frame]; rfl, fun root => ?_, by rw [frees.frame]; rfl, by rw [frees.frame]; rfl,
    by rw [frees.frame]; rfl, by rw [frees.frame]; rfl, by rw [frees.frame]; rfl, fun r => ?_,
    .of_openupval frees.refers (by rw [frees.frame]; rfl) (by rw [frees.frame]; rfl) (by rw [frees.frame]; rfl)
      frees.closes.thread,
    fun opened => (frees.isOpen opened).1⟩
  · rw [frees.frame] at root
    exact root.congr rfl rfl rfl rfl
  · by_cases self : r = o
    · subst self
      exact .inr (.inr ⟨by rw [frees.colour, if_pos rfl], frees.collects⟩)
    · exact .inl (frees.kept self)

theorem owned (frees : Frees us o rest s s') (owned : s.Owned) (linked : s.Linked) : (s'.free o).Owned := by
  refine ⟨fun present => ?_, fun {a} present => ?_, fun {p} traversable present => ?_, fun {u v} present kind => ?_,
    fun {u th level} present kind => ?_, fun {th} present => ?_, fun {th u} present member => ?_, ?_⟩
  · rw [frees.frame]
    exact owned.string (frees.gone present).2
  · obtain member | pending := owned.udata (frees.gone present).2
    · exact .inl (frees.mem_rootgc member (frees.gone present).1)
    · rw [frees.frame]
      exact .inr pending
  · exact frees.mem_rootgc (owned.traversable traversable (frees.gone present).2) (frees.gone present).1
  · by_cases member : u ∈ us
    · exact frees.closes.rootgc.mem_iff.2 (List.mem_append_left _ (List.mem_map_of_mem member))
    · rw [frees.upval, if_neg member] at kind
      exact frees.mem_rootgc (owned.closedUpval (frees.gone present).2 kind) (frees.gone present).1
  · obtain ⟨⟨v, th', level', same, before⟩, notMember⟩ := frees.isOpen ⟨u, th, level, rfl, kind⟩
    cases same
    rw [frees.upval, if_neg (notMember u rfl), before] at kind
    cases kind
    obtain ⟨inUvhead, inList, present'⟩ := owned.openUpval (frees.gone present).2 before
    have other : o ≠ .thread th := fun same => notMember u rfl (frees.all (frees.gone present).2 before same)
    refine ⟨frees.closes.uvhead.2 ⟨inUvhead, notMember u rfl⟩, ?_, ?_⟩
    · rw [frees.thread other]
      exact inList
    · rw [frees.kept (Ne.symm other)]
      exact present'
  · rw [frees.thread (Ne.symm (frees.gone present).1)]
    exact owned.openNodup (frees.gone present).2
  · rw [frees.thread (Ne.symm (frees.gone present).1)] at member
    obtain ⟨here, level, kind⟩ := owned.openList (frees.gone present).2 member
    refine ⟨?_, level, ?_⟩
    · rw [frees.kept]
      · exact here
      · rintro rfl
        have inList : .upval u ∈ s.rootgc := by simp [frees.whole]
        exact (linked.allocated inList).2 ⟨u, th, level, rfl, kind⟩
    · rw [frees.upval, if_neg (frees.notMine kind (Ne.symm (frees.gone present).1))]
      exact kind
  · rw [frees.frame]
    exact owned.buckets

theorem linked (frees : Frees us o rest s s') (linked : s.Linked) : (s'.free o).Linked := by
  have before := linked.nodup
  rw [frees.whole, List.append_assoc, List.cons_append, List.nodup_middle, List.nodup_cons] at before
  obtain ⟨absent, nodup'⟩ := before
  have listed : ∀ {r}, r ∈ s.swept ++ rest → r ∈ s.rootgc ∧ r ≠ o := by
    intro r member
    refine ⟨?_, ?_⟩
    · rw [frees.whole]
      simp only [List.mem_append, List.mem_cons] at member ⊢
      exact member.imp id .inr
    · rintro rfl
      refine absent ?_
      rw [← List.append_assoc]
      exact List.mem_append_left _ member
  have rootgc := frees.closes.rootgc
  refine ⟨?_, fun {r} member => ?_, fun {a} member => ?_, by rw [frees.frame]; exact linked.strings, fun {a} member => ?_⟩
  · have perm : ((s'.free o).rootgc ++ (s'.free o).tmudata.map GCRef.udata).Perm
        (us.map GCRef.upval ++ (s.swept ++ (rest ++ s.tmudata.map GCRef.udata))) := by
      have tmudata : (s'.free o).tmudata = s.tmudata := by rw [frees.frame]; rfl
      rw [tmudata, ← List.append_assoc, ← List.append_assoc, List.append_assoc (us.map _)]
      exact rootgc.append_right _
    refine perm.nodup_iff.2 (List.Nodup.append (frees.nodup.map fun _ _ => GCRef.upval.inj) nodup' ?_)
    intro r isUpval member
    obtain ⟨u, inList, rfl⟩ := List.mem_map.1 isUpval
    rw [← List.append_assoc] at member
    cases List.mem_append.1 member with
    | inl inside =>
      obtain ⟨-, th, level, -, kind⟩ := frees.mine inList
      exact (linked.allocated (listed inside).1).2 ⟨u, th, level, rfl, kind⟩
    | inr isUdata =>
      obtain ⟨v, -, same⟩ := List.mem_map.1 isUdata
      cases same
  · cases List.mem_append.1 (rootgc.mem_iff.1 member) with
    | inl isUpval =>
      obtain ⟨u, inList, rfl⟩ := List.mem_map.1 isUpval
      obtain ⟨white, th, level, isThread, -⟩ := frees.mine inList
      refine ⟨?_, fun opened => (frees.isOpen opened).2 u rfl inList⟩
      rw [frees.kept (by rw [isThread]; rintro ⟨⟩), white]
      rintro ⟨⟩
    | inr inside =>
      obtain ⟨before, other⟩ := listed inside
      obtain ⟨here, closed⟩ := linked.allocated before
      exact ⟨by rw [frees.kept other]; exact here, fun opened => closed (frees.isOpen opened).1⟩
  · cases List.mem_append.1 (rootgc.mem_iff.1 member) with
    | inl isUpval =>
      obtain ⟨u, -, same⟩ := List.mem_map.1 isUpval
      cases same
    | inr inside => exact linked.notString (listed inside).1
  · rw [frees.frame] at member
    rw [frees.kept]
    · exact linked.interned member
    · rintro rfl
      exact linked.notString (by rw [frees.whole]; exact List.mem_append_right _ List.mem_cons_self)

/-- An object that waits for the sweep still does, or it is an upvalue that has just been closed. -/
theorem clean (frees : Frees us o rest s s') (before : ∀ {r c}, s.colour r = some c → c = .white s.currentwhite ∨ s.Pending r)
    (isColour : (s'.free o).colour r = some c) : c = .white s.currentwhite ∨ (s'.free o).Pending r := by
  obtain ⟨other, -⟩ := frees.gone (by rw [isColour]; rintro ⟨⟩)
  rw [frees.kept other] at isColour
  refine (before isColour).elim .inl fun isPending => ?_
  have phase' : (s'.free o).gcstate = .sweep := by rw [frees.frame]; exact frees.phase
  unfold Pending at isPending ⊢
  rw [frees.phase] at isPending
  rw [phase']
  have later : ∀ {p}, p ∈ s.unswept → p ≠ o → p ∈ (s'.free o).unswept := by
    intro p member different
    rw [frees.unswept] at member
    exact frees.closes.unswept ((List.mem_cons.1 member).resolve_left different)
  obtain member | ⟨u, rfl, member⟩ | ⟨u, th, level, rfl, kind, member⟩ := isPending
  · exact .inr (.inl (later member other))
  · refine .inr (.inr (.inl ⟨u, rfl, ?_⟩))
    rw [frees.frame]
    exact member
  · by_cases same : o = .thread th
    · have white := (frees.mine (frees.all (by rw [isColour]; rintro ⟨⟩) kind same)).1
      rw [isColour] at white
      exact .inl (Option.some.inj white)
    · refine .inr (.inr (.inr ⟨u, th, level, rfl, ?_, later member (Ne.symm same)⟩))
      rw [frees.upval, if_neg (frees.notMine kind same)]
      exact kind

end Frees

/-- The object at the position of the sweep is freed, after its open upvalues have been closed. -/
theorem Consistent.freed {us : List Nat} {rest : List GCRef} (consistent : Consistent nothing s)
    (phase : s.gcstate = .sweep) (unswept : s.unswept = o :: rest) (collects : s.collects o = true)
    (closes : Closes us { s with unswept := rest } s')
    (others : ∀ a, o ≠ .thread a → s'.thread a = s.thread a) (nodup : us.Nodup)
    (mine : ∀ {u}, u ∈ us → s.colour (.upval u) = some (.white s.currentwhite) ∧
      ∃ th level, o = .thread th ∧ s.upval u = .inStack th level)
    (all : ∀ {u th level}, s.colour (.upval u) ≠ none → s.upval u = .inStack th level → o = .thread th → u ∈ us) :
    Consistent nothing (s'.free o) ∧ Reclaims s (s'.free o) ∧ (s'.free o).gcstate = .sweep := by
  have frees : Frees us o rest s s' := ⟨phase, unswept, collects, closes, others, nodup, mine, all⟩
  have phase' : (s'.free o).gcstate = .sweep := by rw [frees.frame]; exact phase
  refine ⟨consistent.reclaims frees.reclaims (frees.owned consistent.owned consistent.linked) (frees.linked consistent.linked)
    (frees.clean consistent.clean) ?_, frees.reclaims, phase'⟩
  rw [phase']
  constructor <;> rintro ⟨⟩

/-- The object at the position of the sweep stays, with the colour for the next cycle. -/
theorem Consistent.kept {rest : List GCRef} (consistent : Consistent nothing s) (phase : s.gcstate = .sweep)
    (unswept : s.unswept = o :: rest) (keeps : s.collects o = false)
    (white : ∀ {u th level}, s.colour (.upval u) ≠ none → s.upval u = .inStack th level → o = .thread th →
      s.colour (.upval u) = some (.white s.currentwhite)) :
    let s' := { s.makewhite o with swept := s.swept ++ [o], unswept := rest }
    Consistent nothing s' ∧ Reclaims s s' ∧ s'.gcstate = .sweep := by
  intro s'
  have owned := consistent.owned
  have whole : s'.rootgc = s.rootgc := by simp [s', rootgc, unswept]
  have colour : ∀ r, s'.colour r = if r = o then s.sweptColour o else s.colour r := by
    intro r
    rw [show s'.colour r = _ from colour_makewhite s o r, State.sweptColour, keeps]
    rfl
  have reclaims : Reclaims s s' := by
    refine ⟨rfl, fun root => root.congr rfl rfl rfl rfl, rfl, rfl, rfl, rfl, rfl, fun r => ?_,
      .of_eq (by funext p r; cases p <;> rfl) rfl rfl rfl rfl, id⟩
    rw [colour]
    split
    · next same =>
      subst same
      exact consistent.sweptColour r
    · exact .inl rfl
  have allocated : ∀ {r}, s.colour r ≠ none → s'.colour r ≠ none := by
    intro r present
    rw [colour]
    split
    · next same =>
      subst same
      obtain ⟨c, isColour⟩ := Option.ne_none_iff_exists'.1 present
      rw [State.sweptColour, keeps, isColour]
      rintro ⟨⟩
    · exact present
  refine ⟨consistent.reclaims reclaims ?_ ?_ (fun {r c} isColour => ?_) ?_, reclaims, phase⟩
  · refine ⟨fun present => owned.string (reclaims.allocated present), fun present => ?_, fun traversable present => ?_,
      fun present kind => ?_, fun present kind => ?_, fun present => owned.openNodup (reclaims.allocated present),
      fun present member => ?_, owned.buckets⟩
    · rw [whole]
      exact owned.udata (reclaims.allocated present)
    · rw [whole]
      exact owned.traversable traversable (reclaims.allocated present)
    · rw [whole]
      exact owned.closedUpval (reclaims.allocated present) kind
    · obtain ⟨inUvhead, inList, present'⟩ := owned.openUpval (reclaims.allocated present) kind
      exact ⟨inUvhead, inList, allocated present'⟩
    · obtain ⟨here, kind⟩ := owned.openList (reclaims.allocated present) member
      exact ⟨allocated here, kind⟩
  · refine ⟨?_, fun member => ?_, ?_, consistent.linked.strings, fun member => allocated (consistent.linked.interned member)⟩
    · rw [whole]
      exact consistent.linked.nodup
    · rw [whole] at member
      exact (consistent.linked.allocated member).imp allocated id
    · rw [whole]
      exact consistent.linked.notString
  · rw [colour] at isColour
    split at isColour
    · exact .inl (sweptColour_white isColour)
    · next other =>
      refine (consistent.clean isColour).elim .inl fun isPending => ?_
      unfold Pending at isPending ⊢
      rw [phase] at isPending
      rw [show s'.gcstate = .sweep from phase]
      have later : ∀ {p}, p ∈ s.unswept → p ≠ o → p ∈ s'.unswept := by
        intro p member different
        rw [unswept] at member
        exact (List.mem_cons.1 member).resolve_left different
      obtain member | tmudata | ⟨u, th, level, rfl, kind, member⟩ := isPending
      · exact .inr (.inl (later member other))
      · exact .inr (.inr (.inl tmudata))
      · by_cases same : o = .thread th
        · have isWhite := white (by rw [isColour]; rintro ⟨⟩) kind same
          rw [isColour] at isWhite
          exact .inl (Option.some.inj isWhite)
        · exact .inr (.inr (.inr ⟨u, th, level, rfl, kind, later member (Ne.symm same)⟩))
  · rw [show s'.gcstate = .sweep from phase]
    constructor <;> rintro ⟨⟩

theorem sweepone_consistent (consistent : Consistent nothing s) (phase : s.gcstate = .sweep) :
    Consistent nothing s.sweepone ∧ Reclaims s s.sweepone ∧ s.sweepone.gcstate = .sweep := by
  unfold sweepone
  cases unswept : s.unswept with
  | nil => exact ⟨consistent, .refl s, phase⟩
  | cons o rest =>
    have present : s.colour o ≠ none := (consistent.linked.allocated (by simp [rootgc, unswept])).1
    by_cases isThread : ∃ th, o = .thread th
    · obtain ⟨th, rfl⟩ := isThread
      obtain ⟨consistent₁, reclaims, gcstate, -, unswept', colour, -, -, white⟩ :=
        sweepopenupval_swept consistent phase present
      simp only
      generalize s.sweepopenupval (.thread th) = s₁ at *
      have phase₁ : s₁.gcstate = .sweep := gcstate.trans phase
      have present₁ : s₁.colour (.thread th) ≠ none := colour ▸ present
      have openList : ∀ {u level}, s₁.colour (.upval u) ≠ none → s₁.upval u = .inStack th level →
          u ∈ (s₁.thread th).openupval := fun here kind => (consistent₁.owned.openUpval here kind).2.1
      split
      · next collects =>
        -- `gafqE_freethread` closes the upvalues that are left
        have nodup := consistent₁.owned.openNodup present₁
        obtain ⟨closes, others⟩ := @closeLoop_white _ th (s₁.thread th).openupval { s₁ with unswept := rest } nodup rfl
          fun u member => ⟨white member, (consistent₁.owned.openList present₁ member).2⟩
        obtain ⟨consistent', reclaims', phase'⟩ := consistent₁.freed phase₁ (unswept'.trans unswept)
          collects closes (fun a other => others a fun same => other (same ▸ rfl)) nodup
          (fun member => ⟨white member, th, (consistent₁.owned.openList present₁ member).2.imp fun _ kind => ⟨rfl, kind⟩⟩)
          (fun here kind same => by cases same; exact openList here kind)
        exact ⟨consistent', reclaims.trans reclaims', phase'⟩
      · next keeps =>
        obtain ⟨consistent', reclaims', phase'⟩ := consistent₁.kept phase₁ (unswept'.trans unswept)
          (Bool.eq_false_iff.2 keeps) fun here kind same => by cases same; exact white (openList here kind)
        exact ⟨consistent', reclaims.trans reclaims', phase'⟩
    · have same : s.sweepopenupval o = s := by
        cases o with
        | thread th => exact absurd ⟨th, rfl⟩ isThread
        | string | udata | proto | closure | table | upval => rfl
      simp only [same]
      split
      · next collects =>
        have freed : ({ s with unswept := rest } : State N).freeobj o = ({ s with unswept := rest } : State N).free o := by
          cases o with
          | thread th => exact absurd ⟨th, rfl⟩ isThread
          | string | udata | proto | closure | table | upval => rfl
        rw [freed]
        exact consistent.freed phase unswept collects (closes_nil _) (fun _ _ => rfl) List.nodup_nil
          (by rintro _ ⟨⟩) fun _ _ isSame => absurd ⟨_, isSame⟩ isThread
      · next keeps =>
        exact consistent.kept phase unswept (Bool.eq_false_iff.2 keeps) fun _ _ isSame => absurd ⟨_, isSame⟩ isThread

theorem sweeplist_consistent (count : Nat) : ∀ {s : State N}, Consistent nothing s → s.gcstate = .sweep →
    Consistent nothing (s.sweeplist count) ∧ Reclaims s (s.sweeplist count) ∧ (s.sweeplist count).gcstate = .sweep := by
  induction count with
  | zero => exact fun consistent phase => ⟨consistent, .refl _, phase⟩
  | succ count inductionHypothesis =>
    intro s consistent phase
    obtain ⟨consistent₁, reclaims₁, phase₁⟩ := sweepone_consistent consistent phase
    obtain ⟨consistent', reclaims', phase'⟩ := inductionHypothesis consistent₁ phase₁
    exact ⟨consistent', reclaims₁.trans reclaims', phase'⟩

end Gafq.GC.State
