import Gafq.Verified.GC.Sweep
import Gafq.Verified.StringTable

/-! # The strings of the heap

The heap of the collector has a string table without the hashes and the counter that the source keeps.
As long as the number of strings fits the counter, the functions on the two tables do the same.
-/

namespace Gafq.StringTable.State

open GC (strhash lmod chain minStrTabSize chain_length chain_perm chainAll_perm lmod_lt)

variable {N : Type} {a : GC.State N}

/-- The strings of a heap, with their hashes and their number. -/
def ofHeap (a : GC.State N) : State where
  str := a.string
  hash p := strhash (a.string p)
  marked p := a.marked (.string p)
  fixed p := a.fixed (.string p)
  strt := a.strt
  nuse := UInt32.ofNat a.nuse
  gcstate := a.gcstate
  currentwhite := a.currentwhite
  sweepstrgc := a.sweepstrgc

theorem paint_ofHeap (a : GC.State N) (p : Nat) (f : GC.Colour → GC.Colour) :
    (ofHeap a).paint p f = ofHeap (a.paint (.string p) f) := by
  simp only [paint, GC.State.paint, ofHeap, GC.State.nuse]
  congr 1
  funext q
  by_cases same : q = p
  · subst same
    simp
  · rw [Function.update_of_ne same, Function.update_of_ne fun isSame => same (GC.GCRef.string.inj isSame)]

theorem free_ofHeap (a : GC.State N) (p : Nat) :
    ({ ofHeap a with marked := Function.update (ofHeap a).marked p none } : State) = ofHeap (a.free (.string p)) := by
  simp only [GC.State.free, ofHeap, GC.State.nuse]
  congr 1
  funext q
  by_cases same : q = p
  · subst same
    simp
  · rw [Function.update_of_ne same, Function.update_of_ne fun isSame => same (GC.GCRef.string.inj isSame)]

theorem isdead_ofHeap (a : GC.State N) (p : Nat) : (ofHeap a).isdead p = a.isdead (.string p) := rfl

theorem resize_ofHeap (a : GC.State N) {newsize : Nat} (positive : 0 < newsize) :
    (ofHeap a).resize newsize = ofHeap (a.resizestrt newsize) := by
  unfold resize GC.State.resizestrt
  by_cases sweeping : a.gcstate = .sweepstring
  · rw [if_pos sweeping, if_pos (show (ofHeap a).gcstate = .sweepstring from sweeping)]
  · rw [if_neg sweeping, if_neg (show ¬ (ofHeap a).gcstate = .sweepstring from sweeping)]
    obtain ⟨-, perm⟩ := @chainAll_perm (fun p => lmod (strhash (a.string p)) newsize) a.strt.flatten (List.replicate newsize [])
      fun p => by
        rw [List.length_replicate]
        exact lmod_lt positive
    have length := perm.length_eq
    rw [List.length_append, show (List.replicate newsize ([] : List Nat)).flatten = [] by simp, List.length_nil, Nat.add_zero] at length
    simp only [ofHeap, GC.State.nuse, GC.State.bucket, strings]
    rw [length]

theorem ofNat_lt_ofNat {m n : Nat} (small : m < 2 ^ 32) (small' : n < 2 ^ 32) : UInt32.ofNat m < UInt32.ofNat n ↔ m < n := by
  rw [UInt32.lt_iff_toNat_lt, UInt32.toNat_ofNat_of_lt' small, UInt32.toNat_ofNat_of_lt' small']

/-- A new string in its bucket. -/
theorem linked_ofHeap (a : GC.State N) (buckets : 0 < a.strt.length) (str : TString) (fresh : Nat) :
    (ofHeap a).linked str (strhash str) fresh =
      ofHeap { a.marknew (.string fresh) with
        string := Function.update a.string fresh str
        strt := chain a.strt (lmod (strhash str) a.strt.length) fresh } := by
  have length : (chain a.strt (lmod (strhash str) a.strt.length) fresh).flatten.length = a.strt.flatten.length + 1 :=
    (chain_perm (lmod_lt buckets)).length_eq
  unfold linked ofHeap
  simp only [GC.State.nuse, GC.State.marknew, size, length]
  congr 1
  · funext p
    by_cases same : p = fresh
    · subst same
      simp
    · simp [same]
  · funext p
    by_cases same : p = fresh
    · subst same
      simp
    · simp [same]
  · funext p
    by_cases same : p = fresh
    · subst same
      simp
    · simp [same]
  · rw [UInt32.ofNat_add]
    rfl

theorem newstring_ofHeap (a : GC.State N) (buckets : 0 < a.strt.length) (size : a.strt.length < 2 ^ 32)
    (fits : a.nuse + 1 < 2 ^ 32) (str : TString) (fresh : Nat) :
    (ofHeap a).newstring str (strhash str) fresh = ofHeap (a.newstring str fresh) := by
  obtain ⟨b, chained⟩ : ∃ b : GC.State N, b = { a.marknew (.string fresh) with
    string := Function.update a.string fresh str
    strt := chain a.strt (lmod (strhash str) a.strt.length) fresh } := ⟨_, rfl⟩
  have length : b.strt.length = a.strt.length := by
    rw [chained]
    exact chain_length ..
  have nuse : b.nuse = a.nuse + 1 := by
    rw [chained]
    exact (chain_perm (lmod_lt buckets)).length_eq
  have newstring : a.newstring str fresh =
      if b.strt.length < b.nuse ∧ b.strt.length ≤ maxInt / 2 then b.resizestrt (b.strt.length * 2) else b := by
    rw [chained]
    simp only [GC.State.newstring, GC.State.bucket, Function.update_self]
    rfl
  have newstring' : (ofHeap a).newstring str (strhash str) fresh =
      if UInt32.ofNat (ofHeap b).size < (ofHeap b).nuse ∧ (ofHeap b).size ≤ maxInt / 2 then (ofHeap b).resize ((ofHeap b).size * 2)
      else ofHeap b := by
    rw [chained, ← linked_ofHeap a buckets str fresh]
    rfl
  have crowded : UInt32.ofNat (ofHeap b).size < (ofHeap b).nuse ↔ b.strt.length < b.nuse :=
    ofNat_lt_ofNat (show b.strt.length < 2 ^ 32 by omega) (by omega)
  rw [newstring, newstring']
  by_cases grows : b.strt.length < b.nuse ∧ b.strt.length ≤ maxInt / 2
  · rw [if_pos grows, if_pos ⟨crowded.2 grows.1, grows.2⟩, ← resize_ofHeap b (by omega)]
    rfl
  · rw [if_neg grows, if_neg fun grows' => grows ⟨crowded.1 grows'.1, grows'.2⟩]

/-- `gafqS_newlstr`, while the strings can be counted. -/
theorem newlstr_ofHeap (a : GC.State N) (buckets : 0 < a.strt.length) (size : a.strt.length < 2 ^ 32)
    (fits : a.nuse + 1 < 2 ^ 32) (str : TString) (fresh : Nat) :
    (ofHeap a).newlstr str fresh = ((a.newlstr str fresh).1, ofHeap (a.newlstr str fresh).2) := by
  cases found : (a.strt.getD (lmod (strhash str) a.strt.length) []).find? fun o => a.string o == str with
  | none =>
    have found' : ((ofHeap a).strt.getD (lmod (strhash str) (ofHeap a).size) []).find? (fun o => (ofHeap a).str o == str) = none := found
    simp only [newlstr, GC.State.newlstr, found, found']
    exact congrArg (fresh, ·) (newstring_ofHeap a buckets size fits str fresh)
  | some o =>
    have found' : ((ofHeap a).strt.getD (lmod (strhash str) (ofHeap a).size) []).find? (fun o => (ofHeap a).str o == str) = some o := found
    simp only [newlstr, GC.State.newlstr, found, found', isdead_ofHeap, changewhite, GC.State.changewhite, paint_ofHeap]
    split <;> rfl

/-! ## The sweep -/

theorem sweepstrings_length (list : List Nat) : ∀ a : GC.State N, (a.sweepstrings list).1.length ≤ list.length := by
  induction list with
  | nil => exact fun _ => le_refl _
  | cons p rest inductionHypothesis =>
    intro a
    unfold GC.State.sweepstrings
    split
    · exact (inductionHypothesis _).trans (Nat.le_succ _)
    · exact Nat.succ_le_succ (inductionHypothesis _)

/-- The strings of a bucket that are freed are no longer counted. -/
theorem sweeplist_ofHeap (list : List Nat) : ∀ (a : GC.State N) (nuse : UInt32),
    ({ ofHeap a with nuse } : State).sweeplist list =
      ((a.sweepstrings list).1, { ofHeap (a.sweepstrings list).2 with
        nuse := nuse - UInt32.ofNat (list.length - (a.sweepstrings list).1.length) }) := by
  induction list with
  | nil =>
    intro a nuse
    simp [sweeplist, GC.State.sweepstrings]
  | cons p rest inductionHypothesis =>
    intro a nuse
    unfold sweeplist GC.State.sweepstrings
    have collects : (({ ofHeap a with nuse } : State).isdead p && !({ ofHeap a with nuse } : State).fixed p) =
        a.collects (.string p) := by
      rw [GC.State.collects]
      rfl
    rw [collects]
    by_cases freed : a.collects (.string p) = true
    · have shorter := sweepstrings_length rest (a.free (.string p))
      have start : ({ ofHeap a with nuse } : State).freestring p = { ofHeap (a.free (.string p)) with nuse := nuse - 1 } := by
        rw [← free_ofHeap]
        rfl
      rw [if_pos freed, if_pos freed, start, inductionHypothesis]
      congr 2
      rw [List.length_cons, Nat.succ_sub shorter, Nat.succ_eq_add_one, UInt32.ofNat_add]
      generalize UInt32.ofNat (rest.length - _) = n
      rw [show UInt32.ofNat 1 = 1 from rfl]
      grind
    · have start : ({ ofHeap a with nuse } : State).makewhite p = { ofHeap (a.makewhite (.string p)) with nuse } := by
        rw [GC.State.makewhite, ← paint_ofHeap]
        rfl
      rw [if_neg freed, if_neg freed]
      simp only [start, inductionHypothesis, List.length_cons, Nat.add_sub_add_right]

/-- The step of the collector in the phase `GCSsweepstring`. -/
theorem sweepstring_ofHeap (a : GC.State N) (phase : a.gcstate = .sweepstring) : (ofHeap a).sweepstring = ofHeap a.singlestep := by
  have shorter := sweepstrings_length (a.strt.getD a.sweepstrgc []) a
  have frame := (GC.State.sweepstrings_spec (a.strt.getD a.sweepstrgc []) a).frame
  have swept : (ofHeap a).sweeplist (a.strt.getD a.sweepstrgc []) = _ :=
    sweeplist_ofHeap (a.strt.getD a.sweepstrgc []) a (UInt32.ofNat a.nuse)
  have bucket : a.sweepbucket =
      { (a.sweepstrings (a.strt.getD a.sweepstrgc [])).2 with
        strt := (a.sweepstrings (a.strt.getD a.sweepstrgc [])).2.strt.set
          (a.sweepstrings (a.strt.getD a.sweepstrgc [])).2.sweepstrgc (a.sweepstrings (a.strt.getD a.sweepstrgc [])).1
        sweepstrgc := (a.sweepstrings (a.strt.getD a.sweepstrgc [])).2.sweepstrgc + 1 } := rfl
  generalize (a.sweepstrings (a.strt.getD a.sweepstrgc [])).1 = kept at shorter swept bucket
  generalize (a.sweepstrings (a.strt.getD a.sweepstrgc [])).2 = a₁ at frame swept bucket
  have strt : a₁.strt = a.strt := by rw [frame]
  have sweepstrgc : a₁.sweepstrgc = a.sweepstrgc := by rw [frame]
  -- the strings that are freed leave the table
  have nuse : UInt32.ofNat a.sweepbucket.nuse =
      UInt32.ofNat a.nuse - UInt32.ofNat ((a.strt.getD a.sweepstrgc []).length - kept.length) := by
    have less := length_flatten_set shorter
    have isNuse : a.sweepbucket.nuse = (a.strt.set a.sweepstrgc kept).flatten.length := by
      rw [bucket, strt, sweepstrgc]
      rfl
    rw [isNuse, ← UInt32.ofNat_sub (show (a.strt.getD a.sweepstrgc []).length - kept.length ≤ a.nuse by unfold GC.State.nuse; omega)]
    congr 1
    unfold GC.State.nuse
    omega
  have result : (ofHeap a).sweepstring =
      if a.sweepbucket.strt.length ≤ a.sweepbucket.sweepstrgc then { ofHeap a.sweepbucket with gcstate := .sweep }
      else ofHeap a.sweepbucket := by
    have after : ({ ofHeap a₁ with
        nuse := UInt32.ofNat a.nuse - UInt32.ofNat ((a.strt.getD a.sweepstrgc []).length - kept.length)
        strt := a₁.strt.set a₁.sweepstrgc kept, sweepstrgc := a₁.sweepstrgc + 1 } : State) = ofHeap a.sweepbucket := by
      rw [← nuse, bucket]
      rfl
    rw [← after, bucket]
    unfold sweepstring
    rw [show (ofHeap a).strt.getD (ofHeap a).sweepstrgc [] = a.strt.getD a.sweepstrgc [] from rfl, swept]
    rfl
  rw [result, GC.State.singlestep, phase]
  simp only
  split <;> rfl

/-- The check at the end of the sweep. -/
theorem checkSizes_ofHeap (a : GC.State N) (size : a.strt.length < 2 ^ 32) (fits : a.nuse < 2 ^ 32) :
    (ofHeap a).checkSizes = ofHeap a.checkSizes := by
  have few : (ofHeap a).nuse < UInt32.ofNat ((ofHeap a).size / 4) ↔ a.nuse < a.strt.length / 4 :=
    ofNat_lt_ofNat fits (show a.strt.length / 4 < 2 ^ 32 by omega)
  unfold checkSizes GC.State.checkSizes
  by_cases shrinks : a.nuse < a.strt.length / 4 ∧ minStrTabSize * 2 < a.strt.length
  · rw [if_pos shrinks, if_pos ⟨few.2 shrinks.1, shrinks.2⟩, ← resize_ofHeap a (by omega)]
    rfl
  · rw [if_neg shrinks, if_neg fun shrinks' => shrinks ⟨few.1 shrinks'.1, shrinks'.2⟩]

end Gafq.StringTable.State
