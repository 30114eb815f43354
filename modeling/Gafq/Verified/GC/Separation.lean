import Gafq.Verified.GC.Atomic

/-! # Which userdata are to be finalized

`gafqC_separateudata` goes through its list once.  Because no userdata is in the list twice, what it does
with each of them depends on the state before the loop only.
-/

namespace Gafq.GC.State

variable {N : Type} {s s' : State N} {o p r : GCRef} {all : Bool}

/-- The loop looks at the tag method of the userdata. -/
def candidate (s : State N) (all : Bool) (u : Nat) : Bool := s.iswhite (.udata u) || all

/-- The userdata moves to the list `tmudata`. -/
def selected (s : State N) (all : Bool) (u : Nat) : Bool :=
  s.candidate all u && !(s.udata u).finalized && !(s.gcmethod u).isNil

def isSelected (s : State N) (all : Bool) : GCRef → Bool
  | .udata u => s.selected all u
  | _ => false

/-- The userdata in a list that are to be finalized. -/
def selection (s : State N) (all : Bool) (list : List GCRef) : List Nat :=
  list.filterMap fun
    | .udata u => if s.selected all u then some u else none
    | _ => none

/-- The userdata after the loop. -/
def separated (s : State N) (all : Bool) (list : List GCRef) (u : Nat) : Udata :=
  if .udata u ∈ list ∧ s.candidate all u = true then { s.udata u with finalized := true } else s.udata u

theorem mem_selection {u : Nat} {list : List GCRef} :
    u ∈ s.selection all list ↔ .udata u ∈ list ∧ s.selected all u = true := by
  unfold selection
  rw [List.mem_filterMap]
  constructor
  · rintro ⟨o, member, isSome⟩
    cases o with
    | udata v =>
      simp only [Option.ite_none_right_eq_some, Option.some.injEq] at isSome
      obtain ⟨isSelected, rfl⟩ := isSome
      exact ⟨member, isSelected⟩
    | string | proto | closure | table | upval | thread => cases isSome
  · rintro ⟨member, isSelected⟩
    exact ⟨.udata u, member, by simp [isSelected]⟩

/-- Other userdata are not affected when one is marked as finalized. -/
theorem selected_markfinalized {u v : Nat} (other : v ≠ u) :
    (s.markfinalized u).selected all v = s.selected all v ∧ (s.markfinalized u).udata v = s.udata v := by
  have udata : (s.markfinalized u).udata v = s.udata v := Function.update_of_ne other ..
  refine ⟨?_, udata⟩
  unfold selected gcmethod
  rw [udata]
  rfl

theorem selection_congr {s' : State N} {list : List GCRef} (same : ∀ u, .udata u ∈ list → s'.selected all u = s.selected all u) :
    s'.selection all list = s.selection all list ∧
      (list.filter fun o => !s'.isSelected all o) = list.filter fun o => !s.isSelected all o := by
  constructor
  · apply List.filterMap_congr
    intro o member
    cases o with
    | udata u => simp only [same u member]
    | string | proto | closure | table | upval | thread => rfl
  · apply List.filter_congr
    intro o member
    cases o with
    | udata u => simp only [isSelected, same u member]
    | string | proto | closure | table | upval | thread => rfl

/-- What the loop does. -/
theorem separateLoop_eq (list : List GCRef) : ∀ {s : State N}, list.Nodup → s.separateLoop all list =
    (list.filter fun o => !s.isSelected all o,
      { s with udata := s.separated all list, tmudata := s.tmudata ++ s.selection all list }) := by
  induction list with
  | nil =>
    intro s _
    have udata : s.separated all [] = s.udata := by
      funext u
      simp [separated]
    simp [separateLoop, selection, udata]
  | cons o rest inductionHypothesis =>
    intro s nodup
    obtain ⟨notMember, nodup'⟩ := List.nodup_cons.1 nodup
    -- the userdata `u` has been looked at
    have marked : ∀ {u}, o = .udata u → s.candidate all u = true → (s.udata u).finalized = false →
        (s.markfinalized u).separated all rest = s.separated all (o :: rest) ∧
        (s.markfinalized u).selection all rest = s.selection all rest ∧
        (rest.filter fun o => !(s.markfinalized u).isSelected all o) = rest.filter fun o => !s.isSelected all o := by
      rintro u rfl candidate _
      have others : ∀ v, GCRef.udata v ∈ rest → v ≠ u := by
        rintro v member rfl
        exact notMember member
      refine ⟨?_, selection_congr fun v member => (selected_markfinalized (others v member)).1⟩
      funext v
      by_cases same : v = u
      · subst same
        simp [separated, notMember, candidate, markfinalized, setUdata]
      · have udata := (@selected_markfinalized _ s all u v same).2
        have iswhite : (s.markfinalized u).candidate all v = s.candidate all v := rfl
        simp only [separated, udata, iswhite, List.mem_cons, GCRef.udata.injEq, same, false_or]
    -- an object that stays as it is
    have skipped : s.isSelected all o = false →
        (∀ u, o = .udata u → s.candidate all u = true → (s.udata u).finalized = true) →
        s.separated all rest = s.separated all (o :: rest) ∧ s.selection all (o :: rest) = s.selection all rest := by
      intro notSelected already
      constructor
      · funext u
        by_cases same : o = .udata u
        · subst same
          by_cases candidate : s.candidate all u = true
          · have finalized := already u rfl candidate
            have unchanged : ({ s.udata u with finalized := true } : Udata) = s.udata u := by
              cases isUdata : s.udata u
              simp_all
            simp [separated, notMember, candidate, unchanged]
          · simp [separated, candidate]
        · simp only [separated, List.mem_cons, Ne.symm same, false_or]
      · unfold selection
        rw [List.filterMap_cons_none]
        cases o with
        | udata u =>
          have notSelected : s.selected all u = false := notSelected
          simp [notSelected]
        | string | proto | closure | table | upval | thread => rfl
    cases o with
    | udata u =>
      unfold separateLoop
      by_cases bother : (!(s.iswhite (.udata u) || all) || (s.udata u).finalized) = true
      · have notSelected : s.isSelected all (.udata u) = false := by
          simp only [isSelected, selected, candidate]
          grind
        obtain ⟨udata, selection⟩ := skipped notSelected fun v same candidate => by
          cases same
          simp only [State.candidate] at candidate
          simpa [candidate] using bother
        rw [if_pos bother, inductionHypothesis nodup', List.filter_cons_of_pos (by simp [notSelected]), udata, selection]
      · have candidate : s.candidate all u = true := by
          simp only [State.candidate]
          grind
        have notYet : (s.udata u).finalized = false := by grind
        obtain ⟨udata, selection, kept⟩ := marked rfl candidate notYet
        rw [if_neg bother]
        by_cases none : (s.gcmethod u).isNil = true
        · have notSelected : s.isSelected all (.udata u) = false := by simp [isSelected, selected, none]
          rw [if_pos none, inductionHypothesis nodup', List.filter_cons_of_pos (by simp [notSelected]), udata, kept, selection]
          have fewer : s.selection all (.udata u :: rest) = s.selection all rest := by
            have notSelected : s.selected all u = false := notSelected
            simp [State.selection, notSelected]
          rw [fewer]
          rfl
        · have isSelected : s.isSelected all (.udata u) = true := by simp [State.isSelected, selected, candidate, notYet, none]
          have more : s.selection all (.udata u :: rest) = u :: s.selection all rest := by
            have isSelected : s.selected all u = true := isSelected
            simp [State.selection, isSelected]
          rw [if_neg none]
          simp only
          rw [inductionHypothesis nodup', List.filter_cons_of_neg (by simp [isSelected]), more]
          show (rest.filter fun o => !(s.markfinalized u).isSelected all o, { s with
            udata := (s.markfinalized u).separated all rest
            tmudata := s.tmudata ++ [u] ++ (s.markfinalized u).selection all rest }) = _
          rw [udata, kept, selection, List.append_assoc]
          rfl
    | string | proto | closure | table | upval | thread =>
      obtain ⟨udata, selection⟩ := skipped rfl nofun
      rw [separateLoop, inductionHypothesis nodup', List.filter_cons_of_pos (by simp [isSelected]), udata, selection]
      · nofun

/-- The part of `rootgc` that `gafqC_separateudata` goes through. -/
def afterMain (s : State N) : List GCRef := s.rootgc.dropWhile (· != .thread s.mainthread)

theorem separateudata_eq (nodup : s.rootgc.Nodup) : s.separateudata all = { s with
    udata := s.separated all s.afterMain
    tmudata := s.tmudata ++ s.selection all s.afterMain
    swept := []
    unswept := s.rootgc.takeWhile (· != .thread s.mainthread) ++ s.afterMain.filter fun o => !s.isSelected all o } := by
  have loop := @separateLoop_eq _ all s.afterMain s (nodup.sublist (List.dropWhile_sublist _))
  unfold separateudata
  simp only
  rw [show s.rootgc.dropWhile (· != .thread s.mainthread) = s.afterMain from rfl, loop]

end Gafq.GC.State
