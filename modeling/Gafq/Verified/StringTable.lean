import Gafq.StringTable
import Gafq.Verified.Buckets
import Gafq.Base.Bytes

/-! # Strings are interned

Every string that is allocated is in the bucket for its hash, and no two of them have the same
characters.  Before the white flips again the sweep does not free a string that `gafqS_newlstr` has
returned.  The counter counts modulo `2 ^ 32`.
-/

namespace Gafq.StringTable.State

open GC

variable {s s' : State} {a b : Nat}

structure WellFormed (s : State) : Prop where
  positive : 0 < s.size
  nodup : s.strings.Nodup
  interned : ∀ {a}, a ∈ s.strings ↔ s.marked a ≠ none
  hashed : ∀ {a}, a ∈ s.strings → s.hash a = strhash (s.str a)
  placed : ∀ {i a}, a ∈ s.strt.getD i [] → lmod (s.hash a) s.size = i
  unique : ∀ {a b}, a ∈ s.strings → b ∈ s.strings → s.str a = s.str b → a = b
  counted : s.nuse = UInt32.ofNat s.strings.length

theorem newstate_wellFormed : newstate.WellFormed := by
  have noStrings : newstate.strings = [] := by simp [strings, newstate]
  have size : newstate.size = minStrTabSize := List.length_replicate ..
  constructor
  · rw [size]
    decide
  · rw [noStrings]
    exact List.nodup_nil
  · intro a
    rw [noStrings]
    simp [newstate]
  · intro a member
    rw [noStrings] at member
    cases member
  · intro i a member
    exact absurd (getD_subset_flatten member) (by simp [newstate])
  · intro a b member
    rw [noStrings] at member
    cases member
  · rw [noStrings]
    rfl

theorem mem_strings_iff : a ∈ s.strings ↔ ∃ i, a ∈ s.strt.getD i [] := by
  constructor
  · intro member
    obtain ⟨bucket, inTable, inBucket⟩ := List.mem_flatten.1 member
    obtain ⟨i, inside, rfl⟩ := List.mem_iff_getElem.1 inTable
    exact ⟨i, by simpa [List.getD, inside] using inBucket⟩
  · rintro ⟨i, inBucket⟩
    exact getD_subset_flatten inBucket

/-- A string that is in the table is in the bucket for its characters. -/
theorem WellFormed.mem_bucket (wellFormed : s.WellFormed) (member : a ∈ s.strings) :
    a ∈ s.strt.getD (lmod (strhash (s.str a)) s.size) [] := by
  obtain ⟨i, inBucket⟩ := mem_strings_iff.1 member
  rw [← wellFormed.hashed member, wellFormed.placed inBucket]
  exact inBucket

/-- Colours do not matter. -/
theorem WellFormed.recolour (wellFormed : s.WellFormed) {marked : Nat → Option Colour} {fixed : Nat → Bool}
    {gcstate : GCPhase} {currentwhite : Bool} {sweepstrgc : Nat} (same : ∀ a, marked a = none ↔ s.marked a = none) :
    ({ s with marked, fixed, gcstate, currentwhite, sweepstrgc } : State).WellFormed :=
  ⟨wellFormed.positive, wellFormed.nodup, fun {a} => wellFormed.interned.trans (not_congr (same a).symm),
    wellFormed.hashed, wellFormed.placed, wellFormed.unique, wellFormed.counted⟩

theorem paint_none (s : State) (a : Nat) (f : Colour → Colour) (b : Nat) :
    (s.paint a f).marked b = none ↔ s.marked b = none := by
  by_cases same : b = a
  · subst same
    simp [paint]
  · simp [paint, same]

theorem WellFormed.paint (wellFormed : s.WellFormed) (a : Nat) (f : Colour → Colour) : (s.paint a f).WellFormed :=
  @WellFormed.recolour s wellFormed (s.paint a f).marked s.fixed s.gcstate s.currentwhite s.sweepstrgc (s.paint_none a f)

/-! ## Resizing -/

theorem getD_chain {hash : List (List Nat)} {i j : Nat} (member : b ∈ (chain hash i a).getD j []) :
    b = a ∧ i = j ∨ b ∈ hash.getD j [] := by
  simp only [chain, List.getD_eq_getElem?_getD, List.getElem?_modify] at member ⊢
  split at member
  · next same =>
    cases bucket : hash[j]? with
    | none => simp [bucket] at member
    | some entries =>
      simp only [bucket, Option.map_eq_map, Option.map_some, Option.getD_some, List.mem_cons] at member ⊢
      exact member.imp (⟨·, same⟩) id
  · rw [Option.map_eq_map, Option.map_id'] at member
    exact .inr member

/-- The entries that are chained are in the buckets that they belong to. -/
theorem getD_chainAll {place : Nat → Nat} (as : List Nat) : ∀ {hash : List (List Nat)} {j : Nat},
    b ∈ (as.foldl (fun hash a => chain hash (place a) a) hash).getD j [] → place b = j ∨ b ∈ hash.getD j [] := by
  induction as with
  | nil => exact fun member => .inr member
  | cons a as inductionHypothesis =>
    intro hash j member
    obtain placed | before := inductionHypothesis member
    · exact .inl placed
    · obtain ⟨rfl, same⟩ | old := getD_chain before
      · exact .inl same
      · exact .inr old

theorem resize_wellFormed (wellFormed : s.WellFormed) {newsize : Nat} (positive : 0 < newsize) :
    (s.resize newsize).WellFormed ∧ (s.resize newsize).strings.Perm s.strings := by
  unfold resize
  split
  · exact ⟨wellFormed, .refl _⟩
  · have inside : ∀ a, lmod (s.hash a) newsize < (List.replicate newsize ([] : List Nat)).length := fun a => by
      rw [List.length_replicate]
      exact lmod_lt positive
    obtain ⟨length, perm⟩ := chainAll_perm (fun a => lmod (s.hash a) newsize) s.strings inside
    rw [List.flatten_replicate_nil, List.append_nil] at perm
    rw [List.length_replicate] at length
    refine ⟨⟨?_, perm.nodup_iff.2 wellFormed.nodup, fun {a} => perm.mem_iff.trans wellFormed.interned,
      fun member => wellFormed.hashed (perm.mem_iff.1 member), fun {i a} member => ?_,
      fun member member' => wellFormed.unique (perm.mem_iff.1 member) (perm.mem_iff.1 member'), ?_⟩, perm⟩
    · show 0 < List.length _
      rw [length]
      exact positive
    · obtain placed | empty := getD_chainAll s.strings member
      · show lmod (s.hash a) (List.length _) = i
        rw [length]
        exact placed
      · exact absurd (getD_subset_flatten empty) (by simp)
    · exact wellFormed.counted.trans (congrArg UInt32.ofNat perm.length_eq.symm)

theorem resize_frame (s : State) (newsize : Nat) : s.resize newsize = { s with strt := (s.resize newsize).strt } := by
  unfold resize
  split <;> rfl

/-! ## Creating strings -/

/-- The new string before the table is made larger. -/
def linked (s : State) (str : TString) (h fresh : Nat) : State :=
  { s with
    str := Function.update s.str fresh str
    hash := Function.update s.hash fresh h
    marked := Function.update s.marked fresh (some (.white s.currentwhite))
    fixed := Function.update s.fixed fresh false
    strt := chain s.strt (lmod h s.size) fresh
    nuse := s.nuse + 1 }

theorem linked_wellFormed (wellFormed : s.WellFormed) {str : TString} {fresh : Nat} (unused : s.marked fresh = none)
    (absent : ∀ b ∈ s.strings, s.str b ≠ str) :
    (s.linked str (strhash str) fresh).WellFormed ∧ (s.linked str (strhash str) fresh).strings.Perm (fresh :: s.strings) := by
  have size : (s.linked str (strhash str) fresh).size = s.size := chain_length ..
  have perm : (s.linked str (strhash str) fresh).strings.Perm (fresh :: s.strings) := chain_perm (lmod_lt wellFormed.positive)
  have notFresh : ∀ {a}, a ∈ s.strings → a ≠ fresh := by
    rintro a member rfl
    exact wellFormed.interned.1 member unused
  have isFresh : fresh ∉ s.strings := fun member => notFresh member rfl
  refine ⟨⟨size ▸ wellFormed.positive, perm.nodup_iff.2 (List.nodup_cons.2 ⟨isFresh, wellFormed.nodup⟩), fun {a} => ?_,
    fun {a} member => ?_, fun {i a} member => ?_, fun {a b} member member' same => ?_, ?_⟩, perm⟩
  · rw [perm.mem_iff, List.mem_cons, wellFormed.interned]
    by_cases self : a = fresh
    · subst self
      simp [linked]
    · simp [linked, self]
  · obtain rfl | old := List.mem_cons.1 (perm.mem_iff.1 member)
    · simp [linked]
    · simpa [linked, notFresh old] using wellFormed.hashed old
  · rw [size]
    obtain ⟨rfl, same⟩ | old := getD_chain member
    · simpa [linked] using same
    · have other : a ≠ fresh := notFresh (getD_subset_flatten old)
      simpa [linked, other] using wellFormed.placed old
  · obtain rfl | old := List.mem_cons.1 (perm.mem_iff.1 member) <;>
      obtain rfl | old' := List.mem_cons.1 (perm.mem_iff.1 member')
    · rfl
    · simp only [linked, Function.update_self, Function.update_of_ne (notFresh old')] at same
      exact absurd same.symm (absent b old')
    · simp only [linked, Function.update_self, Function.update_of_ne (notFresh old)] at same
      exact absurd same (absent a old)
    · simp only [linked, Function.update_of_ne (notFresh old), Function.update_of_ne (notFresh old')] at same
      exact wellFormed.unique old old' same
  · rw [perm.length_eq, List.length_cons, UInt32.ofNat_add, ← wellFormed.counted]
    rfl

theorem newstring_eq (s : State) (str : TString) (h fresh : Nat) :
    s.newstring str h fresh = s.linked str h fresh ∨
    s.newstring str h fresh = (s.linked str h fresh).resize ((s.linked str h fresh).size * 2) := by
  unfold newstring
  simp only
  split
  · exact .inr rfl
  · exact .inl rfl

theorem newstring_wellFormed (wellFormed : s.WellFormed) {str : TString} {fresh : Nat} (unused : s.marked fresh = none)
    (absent : ∀ b ∈ s.strings, s.str b ≠ str) :
    (s.newstring str (strhash str) fresh).WellFormed ∧
    (s.newstring str (strhash str) fresh).strings.Perm (fresh :: s.strings) ∧
    s.newstring str (strhash str) fresh =
      { s.linked str (strhash str) fresh with strt := (s.newstring str (strhash str) fresh).strt } := by
  obtain ⟨wellFormed', perm⟩ := linked_wellFormed wellFormed unused absent
  obtain same | resized := newstring_eq s str (strhash str) fresh
  · rw [same]
    exact ⟨wellFormed', perm, rfl⟩
  · have positive : 0 < (s.linked str (strhash str) fresh).size * 2 := Nat.mul_pos wellFormed'.positive Nat.two_pos
    obtain ⟨wellFormed'', perm'⟩ := resize_wellFormed wellFormed' positive
    rw [resized]
    exact ⟨wellFormed'', perm'.trans perm, resize_frame _ _⟩

/-- `gafqS_newlstr` finds the string, or there is none with these characters. -/
theorem WellFormed.find_cases (wellFormed : s.WellFormed) (str : TString) :
    (∃ o ∈ s.strings, s.str o = str ∧
      ∀ fresh, s.newlstr str fresh = (o, if s.isdead o then s.changewhite o else s)) ∨
    (∀ b ∈ s.strings, s.str b ≠ str) ∧ ∀ fresh, s.newlstr str fresh = (fresh, s.newstring str (strhash str) fresh) := by
  unfold newlstr
  simp only
  cases found : (s.strt.getD (lmod (strhash str) s.size) []).find? fun o => s.str o == str with
  | some o =>
    have isStr : s.str o = str := by simpa using List.find?_some found
    exact .inl ⟨o, getD_subset_flatten (List.mem_of_find?_eq_some found), isStr, fun _ => rfl⟩
  | none =>
    refine .inr ⟨fun b member same => ?_, fun _ => rfl⟩
    have inBucket := wellFormed.mem_bucket member
    rw [same] at inBucket
    simpa [same] using List.find?_eq_none.1 found b inBucket

theorem newlstr_wellFormed (wellFormed : s.WellFormed) {str : TString} {fresh : Nat} (unused : s.marked fresh = none) :
    (s.newlstr str fresh).2.WellFormed := by
  obtain ⟨o, -, -, result⟩ | ⟨absent, result⟩ := wellFormed.find_cases str
  · rw [result]
    simp only
    split
    · exact wellFormed.paint o _
    · exact wellFormed
  · rw [result]
    exact (newstring_wellFormed wellFormed unused absent).1

/-! ## The sweep -/

/-- The sweep frees the string. -/
def collects (s : State) (a : Nat) : Bool := s.isdead a && !s.fixed a

/-- The sweep of a list keeps the strings that it does not free, and frees the others. -/
theorem sweeplist_spec (as : List Nat) : ∀ {s : State}, as.Nodup →
    (s.sweeplist as).1 = as.filter (! s.collects ·) ∧
    (s.sweeplist as).2 = { s with
      nuse := s.nuse - UInt32.ofNat (as.length - (s.sweeplist as).1.length), marked := (s.sweeplist as).2.marked } ∧
    ∀ a, (s.sweeplist as).2.marked a = if a ∈ as then
      (if s.collects a then none else (s.marked a).map fun _ => .white s.currentwhite) else s.marked a := by
  induction as with
  | nil => exact fun {s} _ => ⟨rfl, by simp [sweeplist], fun _ => rfl⟩
  | cons curr rest inductionHypothesis =>
    intro s nodup
    obtain ⟨notInRest, nodup'⟩ := List.nodup_cons.1 nodup
    have apart : ∀ {a}, a ∈ rest → a ≠ curr := fun member same => notInRest (same ▸ member)
    unfold sweeplist
    split
    · next collected =>
      have isCollected : s.collects curr = true := collected
      obtain ⟨kept, frame, marks⟩ := @inductionHypothesis (s.freestring curr) nodup'
      have same : ∀ {a}, a ≠ curr → (s.freestring curr).marked a = s.marked a := fun other => Function.update_of_ne other ..
      have collects : ∀ {a}, a ∈ rest → (s.freestring curr).collects a = s.collects a := fun member => by
        simp only [State.collects, isdead, same (apart member)]
        rfl
      refine ⟨?_, ?_, fun a => ?_⟩
      · rw [kept, List.filter_cons_of_neg (by simp [isCollected])]
        exact List.filter_congr fun a member => by rw [collects member]
      · have shorter : ((s.freestring curr).sweeplist rest).1.length ≤ rest.length := by
          rw [kept]
          exact List.length_filter_le ..
        have counted : (curr :: rest).length - ((s.freestring curr).sweeplist rest).1.length =
            1 + (rest.length - ((s.freestring curr).sweeplist rest).1.length) := by
          rw [List.length_cons]
          omega
        have regrouped : ∀ n x : UInt32, n - 1 - x = n - (1 + x) := by grind
        rw [counted, UInt32.ofNat_add, UInt32.ofNat_one, ← regrouped]
        exact frame
      · rw [marks]
        by_cases self : a = curr
        · subst self
          simp [notInRest, isCollected, freestring]
        · have rest' : a ∈ curr :: rest ↔ a ∈ rest := by simp [self]
          simp only [rest', same self]
          split
          · next member =>
            rw [collects member]
            rfl
          · rfl
    · next keeps =>
      have isKept : s.collects curr = false := Bool.eq_false_iff.2 keeps
      obtain ⟨kept, frame, marks⟩ := @inductionHypothesis (s.makewhite curr) nodup'
      have same : ∀ {a}, a ≠ curr → (s.makewhite curr).marked a = s.marked a := fun other => Function.update_of_ne other ..
      have collects : ∀ {a}, a ∈ rest → (s.makewhite curr).collects a = s.collects a := fun member => by
        simp only [State.collects, isdead, same (apart member)]
        rfl
      simp only
      refine ⟨?_, ?_, fun a => ?_⟩
      · rw [kept, List.filter_cons_of_pos (by simp [isKept])]
        exact congrArg (curr :: ·) (List.filter_congr fun a member => by rw [collects member])
      · rw [frame, List.length_cons, List.length_cons, Nat.add_sub_add_right]
        rfl
      · rw [marks]
        by_cases self : a = curr
        · subst self
          simp [notInRest, isKept, makewhite, paint]
        · have rest' : a ∈ curr :: rest ↔ a ∈ rest := by simp [self]
          simp only [rest', same self]
          split
          · next member =>
            rw [collects member]
            rfl
          · rfl

theorem getD_set {buckets : List (List Nat)} {i j : Nat} {kept : List Nat} (member : a ∈ (buckets.set i kept).getD j []) :
    i = j ∧ a ∈ kept ∨ i ≠ j ∧ a ∈ buckets.getD j [] := by
  rw [List.getD_eq_getElem?_getD, List.getElem?_set] at member
  split at member
  · next same =>
    split at member
    · exact .inl ⟨same, member⟩
    · simp at member
  · next other =>
    rw [← List.getD_eq_getElem?_getD] at member
    exact .inr ⟨other, member⟩

theorem length_flatten_set {kept : List Nat} : ∀ {buckets : List (List Nat)} {i : Nat},
    kept.length ≤ (buckets.getD i []).length →
    (buckets.set i kept).flatten.length + ((buckets.getD i []).length - kept.length) = buckets.flatten.length
  | [], _, shorter => by simp
  | bucket :: rest, 0, shorter => by
    simp only [List.getD_cons_zero] at shorter
    simp only [List.set_cons_zero, List.flatten_cons, List.length_append, List.getD_cons_zero]
    omega
  | bucket :: rest, i + 1, shorter => by
    have tail : (rest.set i kept).flatten.length + ((rest.getD i []).length - kept.length) = rest.flatten.length :=
      length_flatten_set (by simpa using shorter)
    simp only [List.set_cons_succ, List.flatten_cons, List.length_append, List.getD_cons_succ]
    omega

/-- What the sweep of a bucket leaves. -/
theorem sweepstring_spec (wellFormed : s.WellFormed) :
    s.sweepstring.WellFormed ∧ s.sweepstring.str = s.str ∧ s.sweepstring.currentwhite = s.currentwhite ∧
    ∀ a ∈ s.strings, s.isdead a = false → a ∈ s.sweepstring.strings ∧ s.sweepstring.isdead a = false := by
  have bucketNodup : (s.strt.getD s.sweepstrgc []).Nodup := by
    by_cases inside : s.sweepstrgc < s.strt.length
    · have here : s.strt.getD s.sweepstrgc [] = s.strt[s.sweepstrgc] := by simp [List.getD, inside]
      rw [here]
      exact wellFormed.nodup.sublist (List.sublist_flatten_of_mem (List.getElem_mem inside))
    · simp [List.getD, inside]
  obtain ⟨kept, frame, marks⟩ := @sweeplist_spec (s.strt.getD s.sweepstrgc []) s bucketNodup
  have sublist : (s.sweeplist (s.strt.getD s.sweepstrgc [])).1.Sublist (s.strt.getD s.sweepstrgc []) := by
    rw [kept]
    exact List.filter_sublist
  obtain ⟨gcstate, result⟩ : ∃ gcstate, s.sweepstring = { s with
      marked := (s.sweeplist (s.strt.getD s.sweepstrgc [])).2.marked
      nuse := s.nuse - UInt32.ofNat ((s.strt.getD s.sweepstrgc []).length - (s.sweeplist (s.strt.getD s.sweepstrgc [])).1.length)
      strt := s.strt.set s.sweepstrgc (s.sweeplist (s.strt.getD s.sweepstrgc [])).1
      sweepstrgc := s.sweepstrgc + 1
      gcstate } := by
    unfold sweepstring
    simp only
    rw [frame]
    split
    · exact ⟨_, rfl⟩
    · exact ⟨_, rfl⟩
  generalize s.sweeplist (s.strt.getD s.sweepstrgc []) = swept at kept frame marks sublist result
  obtain ⟨kept₀, s₁⟩ := swept
  simp only at kept marks sublist result
  rw [result]
  have fewer := flatten_set_sublist sublist
  have size : (s.strt.set s.sweepstrgc kept₀).length = s.strt.length := List.length_set ..
  -- the strings that are left
  have members : ∀ a, a ∈ (s.strt.set s.sweepstrgc kept₀).flatten ↔ s₁.marked a ≠ none := by
    intro a
    rw [marks]
    by_cases inBucket : a ∈ s.strt.getD s.sweepstrgc []
    · rw [if_pos inBucket]
      have present := wellFormed.interned.1 (getD_subset_flatten inBucket)
      by_cases collected : s.collects a = true
      · rw [if_pos collected]
        refine iff_of_false (fun member => ?_) (fun absent => absent rfl)
        have inKept := mem_of_mem_flatten_set wellFormed.nodup inBucket member
        rw [kept] at inKept
        simp [collected] at inKept
      · rw [if_neg collected]
        refine iff_of_true (mem_flatten_set (getD_subset_flatten inBucket) fun _ => ?_) (by simpa using present)
        rw [kept]
        exact List.mem_filter.2 ⟨inBucket, by simpa using collected⟩
    · rw [if_neg inBucket, ← wellFormed.interned]
      exact ⟨fun member => fewer.subset member, fun member => mem_flatten_set member fun here => absurd here inBucket⟩
  refine ⟨⟨?_, wellFormed.nodup.sublist fewer, fun {a} => members a, fun member => wellFormed.hashed (fewer.subset member),
    fun {i a} member => ?_, fun member member' => wellFormed.unique (fewer.subset member) (fewer.subset member'), ?_⟩,
    rfl, rfl, fun a member notDead => ?_⟩
  · show 0 < List.length _
    rw [size]
    exact wellFormed.positive
  · show lmod _ (List.length _) = _
    rw [size]
    obtain ⟨rfl, inKept⟩ | ⟨-, old⟩ := getD_set member
    · exact wellFormed.placed (sublist.subset inKept)
    · exact wellFormed.placed old
  · have lengths := length_flatten_set sublist.length_le
    have counted := wellFormed.counted
    rw [strings, ← lengths, UInt32.ofNat_add] at counted
    show s.nuse - _ = UInt32.ofNat (List.length (List.flatten _))
    rw [counted, UInt32.add_sub_cancel]
  · have notCollected : s.collects a = false := by simp [collects, notDead]
    have present := wellFormed.interned.1 member
    have after := marks a
    constructor
    · refine (members a).2 ?_
      rw [after, notCollected]
      split
      · simpa using present
      · exact present
    · simp only [isdead, after, notCollected]
      split
      · cases isColour : s.marked a with
        | none => exact absurd isColour present
        | some c => cases s.currentwhite <;> simp
      · simpa [isdead] using notDead

theorem checkSizes_eq (s : State) : s.checkSizes = s ∨ minStrTabSize * 2 < s.size ∧ s.checkSizes = s.resize (s.size / 2) := by
  unfold checkSizes
  split
  · next crowded => exact .inr ⟨crowded.2, rfl⟩
  · exact .inl rfl

theorem checkSizes_wellFormed (wellFormed : s.WellFormed) : s.checkSizes.WellFormed ∧ s.checkSizes.strings.Perm s.strings ∧
    s.checkSizes = { s with strt := s.checkSizes.strt } := by
  obtain same | ⟨large, resized⟩ := checkSizes_eq s
  · rw [same]
    exact ⟨wellFormed, .refl _, rfl⟩
  · have positive : 0 < s.size / 2 := by
      simp only [minStrTabSize] at large
      omega
    obtain ⟨wellFormed', perm⟩ := resize_wellFormed wellFormed positive
    rw [resized]
    exact ⟨wellFormed', perm, resize_frame _ _⟩

/-! ## Runs -/

theorem Step.wellFormed (step : Step s s') (wellFormed : s.WellFormed) : s'.WellFormed := by
  cases step with
  | newlstr str unused => exact newlstr_wellFormed wellFormed unused
  | resize positive => exact (resize_wellFormed wellFormed positive).1
  | fix a => exact wellFormed.recolour fun _ => Iff.rfl
  | markroot => exact wellFormed.recolour fun _ => Iff.rfl
  | stringmark a => exact wellFormed.paint a _
  | atomic => exact wellFormed.recolour fun _ => Iff.rfl
  | abandon => exact wellFormed.recolour fun _ => Iff.rfl
  | sweepstring => exact (sweepstring_spec wellFormed).1
  | sweep => exact (checkSizes_wellFormed wellFormed).1.recolour fun _ => Iff.rfl
  | finalize => exact wellFormed.recolour fun _ => Iff.rfl

theorem Run.wellFormed (run : Run newstate s) : s.WellFormed := by
  induction run with
  | refl => exact newstate_wellFormed
  | tail _ step inductionHypothesis => exact step.wellFormed inductionHypothesis

/-- The string is in the table and the sweep of this cycle will not free it. -/
structure Safe (s : State) (a : Nat) (str : TString) : Prop where
  member : a ∈ s.strings
  chars : s.str a = str
  alive : s.isdead a = false

theorem paint_alive {f : Colour → Colour} (alive : s.isdead a = false)
    (spares : ∀ c, c ≠ .white !s.currentwhite → f c ≠ .white !s.currentwhite) : (s.paint b f).isdead a = false := by
  by_cases same : a = b
  · subst same
    cases isColour : s.marked a with
    | none => simp [isdead, paint, isColour]
    | some c =>
      have other : c ≠ .white !s.currentwhite := by simpa [isdead, isColour] using alive
      have after := spares c other
      simpa [isdead, paint, isColour] using after
  · simpa [isdead, paint, same] using alive

theorem newlstr_safe {str chars : TString} {fresh : Nat} (wellFormed : s.WellFormed) (unused : s.marked fresh = none)
    (safe : Safe s a chars) : Safe (s.newlstr str fresh).2 a chars := by
  obtain ⟨o, isString, -, result⟩ | ⟨absent, result⟩ := wellFormed.find_cases str
  · rw [result]
    simp only
    split
    · next dead =>
      have other : a ≠ o := by
        rintro rfl
        rw [safe.alive] at dead
        cases dead
      refine ⟨safe.member, safe.chars, ?_⟩
      simpa [changewhite, paint, isdead, other] using safe.alive
    · exact safe
  · obtain ⟨-, perm, frame⟩ := newstring_wellFormed wellFormed unused absent
    have other : a ≠ fresh := by
      rintro rfl
      exact wellFormed.interned.1 safe.member unused
    rw [result]
    refine ⟨perm.mem_iff.2 (List.mem_cons_of_mem fresh safe.member), ?_, ?_⟩
    · rw [frame]
      exact (Function.update_of_ne other ..).trans safe.chars
    · rw [frame]
      simpa [isdead, linked, other] using safe.alive

/-- Until the white flips the string stays. -/
theorem Step.safe {chars : TString} (step : Step s s') (wellFormed : s.WellFormed) (sameWhite : s'.currentwhite = s.currentwhite)
    (safe : Safe s a chars) : Safe s' a chars := by
  cases step with
  | newlstr str unused => exact newlstr_safe wellFormed unused safe
  | resize positive =>
    have perm := (resize_wellFormed wellFormed positive).2
    refine ⟨perm.mem_iff.2 safe.member, ?_, ?_⟩
    · rw [resize_frame]
      exact safe.chars
    · rw [resize_frame]
      exact safe.alive
  | fix b => exact ⟨safe.member, safe.chars, safe.alive⟩
  | markroot => exact ⟨safe.member, safe.chars, safe.alive⟩
  | stringmark b =>
    refine ⟨safe.member, safe.chars, paint_alive safe.alive fun c other => ?_⟩
    cases c with
    | white bit => nofun
    | gray => exact other
    | black => exact other
  | atomic => cases white : s.currentwhite <;> simp [flip, white] at sameWhite
  | abandon => exact ⟨safe.member, safe.chars, safe.alive⟩
  | sweepstring =>
    obtain ⟨-, str, -, kept⟩ := sweepstring_spec wellFormed
    obtain ⟨member, alive⟩ := kept a safe.member safe.alive
    exact ⟨member, str ▸ safe.chars, alive⟩
  | sweep =>
    obtain ⟨-, perm, frame⟩ := checkSizes_wellFormed wellFormed
    refine ⟨perm.mem_iff.2 safe.member, ?_, ?_⟩
    · show s.checkSizes.str a = chars
      rw [frame]
      exact safe.chars
    · show s.checkSizes.isdead a = false
      rw [frame]
      exact safe.alive
  | finalize => exact ⟨safe.member, safe.chars, safe.alive⟩

theorem CycleRun.safe {chars : TString} (run : CycleRun s s') (wellFormed : s.WellFormed) (safe : Safe s a chars) :
    s'.WellFormed ∧ Safe s' a chars := by
  induction run with
  | refl => exact ⟨wellFormed, safe⟩
  | tail _ step inductionHypothesis =>
    obtain ⟨wellFormed', safe'⟩ := inductionHypothesis
    exact ⟨step.1.wellFormed wellFormed', step.1.safe wellFormed' step.2 safe'⟩

theorem newlstr_returns {str : TString} {fresh : Nat} (wellFormed : s.WellFormed) (unused : s.marked fresh = none) :
    (∀ b ∈ s.strings, s.str b = str → (s.newlstr str fresh).1 = b) ∧
    Safe (s.newlstr str fresh).2 (s.newlstr str fresh).1 str := by
  obtain ⟨o, isString, isStr, result⟩ | ⟨absent, result⟩ := wellFormed.find_cases str
  · rw [result]
    refine ⟨fun b member same => wellFormed.unique isString member (isStr.trans same.symm), ?_⟩
    simp only
    split
    · next dead =>
      refine ⟨isString, isStr, ?_⟩
      have colour : s.marked o = some (.white !s.currentwhite) := by simpa [isdead] using dead
      cases white : s.currentwhite <;> simp [isdead, changewhite, paint, colour, white]
    · next alive => exact ⟨isString, isStr, by simpa using alive⟩
  · obtain ⟨-, perm, frame⟩ := newstring_wellFormed wellFormed unused absent
    rw [result]
    refine ⟨fun b member same => absurd same (absent b member), perm.mem_iff.2 List.mem_cons_self, ?_, ?_⟩
    · rw [frame]
      exact Function.update_self ..
    · rw [frame]
      cases white : s.currentwhite <;> simp [isdead, linked, white]

/-- In every state that a run reaches the strings are interned, and what `gafqS_newlstr` returns is kept
until the white flips. -/
theorem run_interned (run : Run newstate s) :
    (s.strings.Nodup ∧ (∀ a, a ∈ s.strings ↔ s.marked a ≠ none) ∧
      ∀ a ∈ s.strings, ∀ b ∈ s.strings, s.str a = s.str b → a = b) ∧
    (∀ i, ∀ a ∈ s.strt.getD i [], s.hash a = strhash (s.str a) ∧ i = lmod (s.hash a) s.size) ∧
    s.nuse.toNat = s.strings.length % 2 ^ 32 ∧
    ∀ str fresh, s.marked fresh = none →
      (∀ b ∈ s.strings, s.str b = str → (s.newlstr str fresh).1 = b) ∧
      ∀ s', CycleRun (s.newlstr str fresh).2 s' →
        (s.newlstr str fresh).1 ∈ s'.strings ∧ s'.str (s.newlstr str fresh).1 = str := by
  have wellFormed := run.wellFormed
  refine ⟨⟨wellFormed.nodup, fun a => wellFormed.interned, fun a member b member' => wellFormed.unique member member'⟩,
    fun i a inBucket => ⟨wellFormed.hashed (getD_subset_flatten inBucket), (wellFormed.placed inBucket).symm⟩, ?_,
    fun str fresh unused => ?_⟩
  · rw [wellFormed.counted]
    exact UInt32.toNat_ofNat'
  · obtain ⟨existing, safe⟩ := @newlstr_returns _ str fresh wellFormed unused
    refine ⟨existing, fun s' run' => ?_⟩
    obtain ⟨-, safe'⟩ := run'.safe (newlstr_wellFormed wellFormed unused) safe
    exact ⟨safe'.member, safe'.chars⟩

theorem run_interned_twice :
    ((newstate.newlstr [97] 0).2.newlstr [97] 1).1 = 0 ∧ (newstate.newlstr [97] 0).2.nuse.toNat = 1 := by
  have interned := run_interned (.single (.newlstr [97] rfl) : Run newstate (newstate.newlstr [97] 0).2)
  obtain ⟨-, -, counted, returns⟩ := interned
  have length : (newstate.newlstr [97] 0).2.strings.length = 1 := by decide +kernel
  rw [length] at counted
  exact ⟨(returns [97] 1 (by decide +kernel)).1 0 (by decide +kernel) (by decide +kernel), counted⟩

/-! ## Too many strings -/

/-- The strings of four characters, one after the other. -/
theorem run_fourChars : ∀ n, n ≤ 2 ^ 32 → ∃ s, Run newstate s ∧ s.strings.length = n ∧ (∀ a, n ≤ a → s.marked a = none) ∧
    ∀ b ∈ s.strings, ∃ i < n, s.str b = Base.littleEndian 4 i
  | 0, _ => ⟨newstate, .refl, by simp [strings, newstate], fun _ _ => rfl, fun b member => by
      simp [strings, newstate] at member⟩
  | n + 1, atMost => by
    obtain ⟨s, run, length, unused, isFour⟩ := run_fourChars n (by omega)
    have wellFormed := run.wellFormed
    have absent : ∀ b ∈ s.strings, s.str b ≠ Base.littleEndian 4 n := by
      intro b member same
      obtain ⟨i, below, isFour⟩ := isFour b member
      have decoded := congrArg Base.ofLittleEndian (isFour.symm.trans same)
      rw [Base.ofLittleEndian_littleEndian (by omega), Base.ofLittleEndian_littleEndian (by omega)] at decoded
      omega
    obtain ⟨o, isString, same, -⟩ | ⟨-, result⟩ := wellFormed.find_cases (Base.littleEndian 4 n)
    · exact absurd same (absent o isString)
    obtain ⟨-, perm, frame⟩ := newstring_wellFormed wellFormed (unused n le_rfl) absent
    refine ⟨(s.newlstr (Base.littleEndian 4 n) n).2, run.tail (.newlstr _ (unused n le_rfl)), ?_, fun a above => ?_,
      fun b member => ?_⟩
    · rw [result, perm.length_eq, List.length_cons, length]
    · have other : a ≠ n := by omega
      rw [result, frame]
      exact (Function.update_of_ne other ..).trans (unused a (by omega))
    · rw [result] at member ⊢
      rw [frame]
      obtain rfl | old := List.mem_cons.1 (perm.mem_iff.1 member)
      · exact ⟨b, Nat.lt_succ_self b, Function.update_self ..⟩
      · obtain ⟨i, below, isFour⟩ := isFour b old
        have other : b ≠ n := by
          rintro rfl
          exact wellFormed.interned.1 old (unused b le_rfl)
        exact ⟨i, by omega, (Function.update_of_ne other ..).trans isFour⟩

/-- The counter is zero when all strings of four characters are in the table. -/
theorem nuse_wraps : ∃ s, Run newstate s ∧ s.strings.length = 2 ^ 32 ∧ s.nuse.toNat = 0 := by
  obtain ⟨s, run, length, -, -⟩ := run_fourChars (2 ^ 32) le_rfl
  refine ⟨s, run, length, ?_⟩
  rw [run.wellFormed.counted, length, UInt32.toNat_ofNat', Nat.mod_self]

end Gafq.StringTable.State
