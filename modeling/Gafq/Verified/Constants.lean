import Gafq.Binary64
import Gafq.Code.Constants
import Gafq.Verified.TableRefinement

/-! # Indices of constants

An index that a request for a constant returns stays below the number of constants, and what is stored there
is the first constant that has been asked for under an equal key.  Equal keys are the same constant except
for the two zeros.
-/

namespace Gafq.Code

open Table

variable {N : Type} [GafqNumber N] {mp : MainPosition N}

/-- The values that are asked for as constants. -/
def IsConstant : TValue N → Prop
  | .nil | .boolean _ | .number _ | .string _ => True
  | _ => False

/-- The key under which the index of a constant is kept. -/
def constantKey (address : Nat) : TValue N → TValue N
  | .nil => .object .table address
  | v => v

/-- Every index is below the number of constants, and the constant is there. -/
def KeepsConstants (fs : Constants N) (returned : List (TValue N × Int)) : Prop :=
  ∀ v i, (v, i) ∈ returned → 0 ≤ i ∧ i < fs.nk ∧ fs.k i.toNat = v

/-- The table holds the indices that have been returned.  Under each number in it stands the constant that was
the first to be asked for. -/
structure Indexed (mp : MainPosition N) (fs : Constants N) (returned : List (TValue N × Int)) : Prop where
  wf : WellFormed mp fs.h
  nk_le : fs.nk ≤ fs.sizek
  sizek_le : fs.sizek ≤ maxArgBx
  constants : ∀ v i, (v, i) ∈ returned → IsConstant v ∧ IsKey (constantKey fs.address v)
  index : ∀ v i, (v, i) ∈ returned → fs.h.value mp (constantKey fs.address v) = .number (castNum i) ∧ 0 ≤ i ∧ i < fs.nk
  entry : ∀ key n, IsKey key → fs.h.value mp key = .number n →
    ∃ v i, (v, i) ∈ returned ∧ rawequalObj key (constantKey fs.address v) = true ∧ n = castNum i ∧ fs.k i.toNat = v

/-- The errors of a call for a constant that can be a key. -/
def IsOverflow (e : CodeError) : Prop := e = .tableOverflow ∨ e = .table .tableOverflow

theorem number2int_castNum {k : Int} (inInt : InInt k) : number2int (castNum k : N) = k :=
  GafqNumber.number2int_of_eq inInt (GafqNumber.castNum_self inInt)

theorem growvector_spec {nelems size limit : Nat} (within : nelems ≤ size) (small : size ≤ limit) (large : 4 ≤ limit) :
    growvector nelems size limit = none ∨
      ∃ size', growvector nelems size limit = some size' ∧ nelems + 1 ≤ size' ∧ size' ≤ limit := by
  simp only [growvector, growaux, minSizeArray]
  split
  · split
    · split
      · exact .inl rfl
      · exact .inr ⟨limit, rfl, by omega, by omega⟩
    · exact .inr ⟨_, rfl, by omega, by omega⟩
  · exact .inr ⟨size, rfl, by omega, by omega⟩

namespace Indexed

variable {fs fs' : Constants N} {returned : List (TValue N × Int)} {v : TValue N}

theorem inInt (indexed : Indexed mp fs returned) {i : Int} (low : 0 ≤ i) (high : i < fs.nk) : InInt i := by
  have := indexed.nk_le
  have := indexed.sizek_le
  have limit : maxArgBx = 262143 := by decide
  constructor <;> omega

/-- A constant whose key has a number already. -/
theorem found (indexed : Indexed mp fs returned) (isConstant : IsConstant v) (isKey : IsKey (constantKey fs.address v)) {n : N}
    (present : fs.h.value mp (constantKey fs.address v) = .number n) :
    Indexed mp fs (returned ++ [(v, number2int n)]) := by
  obtain ⟨v', i, member, equal, rfl, stored⟩ := indexed.entry _ n isKey present
  obtain ⟨-, low, high⟩ := indexed.index v' i member
  have exact := number2int_castNum (N := N) (indexed.inInt low high)
  refine ⟨indexed.wf, indexed.nk_le, indexed.sizek_le, ?_, ?_, ?_⟩
  · intro w j listed
    obtain listed | listed := List.mem_append.1 listed
    · exact indexed.constants w j listed
    · obtain ⟨rfl, rfl⟩ := Prod.mk.inj (List.mem_singleton.1 listed)
      exact ⟨isConstant, isKey⟩
  · intro w j listed
    obtain listed | listed := List.mem_append.1 listed
    · exact indexed.index w j listed
    · obtain ⟨rfl, rfl⟩ := Prod.mk.inj (List.mem_singleton.1 listed)
      rw [exact]
      exact ⟨present, low, high⟩
  · intro key n isKey present
    obtain ⟨w, j, listed, rest⟩ := indexed.entry key n isKey present
    exact ⟨w, j, List.mem_append_left _ listed, rest⟩

/-- A constant with a new key gets the next index. -/
theorem created (indexed : Indexed mp fs returned) (isConstant : IsConstant v) (isKey : IsKey (constantKey fs.address v))
    {slot : Slot} {h : Table N} (provided : Provides mp fs.h (constantKey fs.address v) slot h)
    (absent : ∀ n, fs.h.value mp (constantKey fs.address v) ≠ .number n) {sizek : Nat} (room : fs.nk + 1 ≤ sizek)
    (small : sizek ≤ maxArgBx) :
    Indexed mp { fs with
      h := h.write slot (.number (castNum fs.nk)), sizek, nk := fs.nk + 1
      k := Function.update (fun i => if fs.sizek ≤ i ∧ i < sizek then .nil else fs.k i) fs.nk v }
      (returned ++ [(v, (fs.nk : Int))]) := by
  have bound := indexed.nk_le
  have values (key : TValue N) : (h.write slot (.number (castNum fs.nk))).value mp key =
      if rawequalObj key (constantKey fs.address v) then .number (castNum fs.nk) else fs.h.value mp key := by
    rw [provided.wf.write_value provided.slotFor, provided.value]
  refine ⟨provided.wf.write provided.slotFor _, room, small, ?_, ?_, ?_⟩
  · intro w j listed
    obtain listed | listed := List.mem_append.1 listed
    · exact indexed.constants w j listed
    · obtain ⟨rfl, rfl⟩ := Prod.mk.inj (List.mem_singleton.1 listed)
      exact ⟨isConstant, isKey⟩
  · intro w j listed
    simp only [values]
    obtain listed | listed := List.mem_append.1 listed
    · obtain ⟨present, low, high⟩ := indexed.index w j listed
      rw [if_neg]
      · exact ⟨present, low, by omega⟩
      · intro equal
        rw [value_of_rawequal fs.h isKey equal] at present
        exact absent _ present
    · obtain ⟨rfl, rfl⟩ := Prod.mk.inj (List.mem_singleton.1 listed)
      rw [if_pos isKey.self]
      exact ⟨rfl, by omega, by omega⟩
  · intro key n isKey' present
    simp only [values] at present
    by_cases equal : rawequalObj key (constantKey fs.address v) = true
    · rw [if_pos equal] at present
      cases present
      exact ⟨v, fs.nk, by simp, equal, rfl, by simp⟩
    · rw [if_neg equal] at present
      obtain ⟨w, j, listed, equal', same, stored⟩ := indexed.entry key n isKey' present
      obtain ⟨-, low, high⟩ := indexed.index w j listed
      have kept : ¬ (fs.sizek ≤ j.toNat ∧ j.toNat < sizek) := by omega
      refine ⟨w, j, List.mem_append_left _ listed, equal', same, ?_⟩
      simp only [Function.update_of_ne (show j.toNat ≠ fs.nk by omega), if_neg kept, stored]

/-- Nothing happens when the table gets a place for a key. -/
theorem provide (indexed : Indexed mp fs returned) {key : TValue N} {slot : Slot} {h : Table N}
    (provided : Provides mp fs.h key slot h) : Indexed mp { fs with h } returned := by
  refine ⟨provided.wf, indexed.nk_le, indexed.sizek_le, indexed.constants, fun w j listed => ?_, fun key n isKey present => ?_⟩
  · simp only [provided.value]
    exact indexed.index w j listed
  · simp only [provided.value] at present
    exact indexed.entry key n isKey present

end Indexed

section

variable {fs : Constants N} {returned : List (TValue N × Int)}

/-- What calls do: they return an index for every constant that is asked for, or one of the tables is too large,
or a number cannot be a key. -/
def Answers (mp : MainPosition N) (m : ConstantsM N (List (TValue N × Int))) (fs : Constants N)
    (returned : List (TValue N × Int)) (calls : List (ConstantCall N)) : Prop :=
  (∃ more fs', m fs = .ok more fs' ∧ Indexed mp fs' (returned ++ more) ∧ more.map Prod.fst = calls.filterMap ConstantCall.value) ∨
    ∃ e fs', m fs = .error e fs' ∧
      (IsOverflow e ∨ e = .table .indexNaN ∧ ∃ r, .numberK r ∈ calls ∧ numeq r r = false)

theorem addk_spec (indexed : Indexed mp fs returned) {v : TValue N} (isConstant : IsConstant v)
    (isKey : IsKey (constantKey fs.address v)) :
    (∃ i fs', addk mp (constantKey fs.address v) v fs = .ok i fs' ∧ Indexed mp fs' (returned ++ [(v, i)])) ∨
      ∃ e fs', addk mp (constantKey fs.address v) v fs = .error e fs' ∧ IsOverflow e := by
  unfold addk
  obtain ⟨slot, h, ran, provided⟩ | ⟨h, ran⟩ := (indexed.wf.setSlot_inserts isKey {}).cases
  · have read : h.read slot = fs.h.value mp (constantKey fs.address v) := by
      rw [provided.wf.read_slotFor provided.slotFor, provided.value]
    simp only [ran]
    split
    · next n isNumber =>
      rw [read] at isNumber
      have found := indexed.found isConstant isKey isNumber
      exact .inl ⟨_, _, rfl, found.provide provided⟩
    · next notNumber =>
      have absent (n : N) : fs.h.value mp (constantKey fs.address v) ≠ .number n := by
        rw [← read]
        exact notNumber n
      obtain full | ⟨sizek, grown, room, small⟩ := growvector_spec indexed.nk_le indexed.sizek_le (by decide)
      · simp only [full]
        exact .inr ⟨_, _, rfl, .inl rfl⟩
      · simp only [grown]
        exact .inl ⟨_, _, rfl, indexed.created isConstant isKey provided absent room small⟩
  · simp only [ran]
    exact .inr ⟨_, _, rfl, .inr rfl⟩

theorem addk_answers (indexed : Indexed mp fs returned) (call : ConstantCall N) {v : TValue N} (asks : call.value = some v)
    (isKey : IsKey (constantKey fs.address v)) (isConstant : IsConstant v) :
    Answers mp ((fun i => [(v, i)]) <$> addk mp (constantKey fs.address v) v) fs returned [call] := by
  obtain ⟨i, fs', ran, indexed'⟩ | ⟨e, fs', ran, overflow⟩ := addk_spec indexed isConstant isKey
  · refine .inl ⟨[(v, i)], fs', ?_, indexed', by simp [asks]⟩
    simp only [Functor.map, EStateM.map, ran]
  · refine .inr ⟨e, fs', ?_, .inl overflow⟩
    simp only [Functor.map, EStateM.map, ran]

theorem newstring_answers (indexed : Indexed mp fs returned) (s : Nat) :
    Answers mp ((fun _ => []) <$> newstring mp s) fs returned [.newstring s] := by
  obtain ⟨slot, h, ran, provided⟩ | ⟨h, ran⟩ := (indexed.wf.setstr_inserts s {}).cases
  · have indexed' := indexed.provide provided
    have read := provided.wf.read_slotFor provided.slotFor
    by_cases isNew : (h.read slot).isNil = true
    · refine .inl ⟨[], { fs with h := h.write slot (.boolean true) }, ?_, ?_, rfl⟩
      · simp only [Functor.map, EStateM.map, newstring, ran, if_pos isNew]
      · -- the mark is not a number, and it does not replace one
        have values (key : TValue N) := provided.wf.write_value provided.slotFor (.boolean true) key
        rw [List.append_nil]
        refine ⟨provided.wf.write provided.slotFor _, indexed.nk_le, indexed.sizek_le, indexed.constants, ?_, ?_⟩
        · intro w j listed
          obtain ⟨present, range⟩ := indexed'.index w j listed
          simp only [values]
          rw [if_neg]
          · exact ⟨present, range⟩
          · intro equal
            simp only at present
            rw [value_of_rawequal h (isKey_string s) equal, ← read] at present
            simp [present] at isNew
        · intro key n isKey present
          simp only [values] at present
          split at present
          · cases present
          · exact indexed'.entry key n isKey present
    · refine .inl ⟨[], { fs with h }, ?_, ?_, rfl⟩
      · simp only [Functor.map, EStateM.map, newstring, ran, if_neg isNew]
      · rw [List.append_nil]
        exact indexed'
  · refine .inr ⟨.table .tableOverflow, { fs with h }, ?_, .inl (.inr rfl)⟩
    simp only [Functor.map, EStateM.map, newstring, ran]

theorem call_answers (indexed : Indexed mp fs returned) (call : ConstantCall N) :
    Answers mp (call.run mp) fs returned [call] := by
  cases call with
  | stringK s => exact addk_answers indexed (.stringK s) (v := .string s) rfl ⟨by simp [constantKey], by simp [constantKey, rawequalObj]⟩ trivial
  | boolK b => exact addk_answers indexed (.boolK b) (v := .boolean b) rfl ⟨by simp [constantKey], by simp [constantKey, rawequalObj]⟩ trivial
  | nilK => exact addk_answers indexed .nilK (v := .nil) rfl ⟨by simp [constantKey], by simp [constantKey, rawequalObj]⟩ trivial
  | newstring s => exact newstring_answers indexed s
  | numberK r =>
    by_cases self : numeq r r = true
    · exact addk_answers indexed (.numberK r) (v := .number r) rfl ⟨by simp [constantKey], self⟩ trivial
    · have notSelf : numeq r r = false := by simpa using self
      refine .inr ⟨.table .indexNaN, { fs with h := { fs.h with flags := 0 } }, ?_, .inr ⟨rfl, r, by simp, notSelf⟩⟩
      simp only [ConstantCall.run, Functor.map, EStateM.map, numberK, addk, indexed.wf.setSlot_isNaN notSelf]

theorem calls_answer (calls : List (ConstantCall N)) (indexed : Indexed mp fs returned) :
    Answers mp (runCalls mp calls) fs returned calls := by
  induction calls generalizing fs returned with
  | nil => exact .inl ⟨[], fs, rfl, by simpa using indexed, rfl⟩
  | cons call calls inductionHypothesis =>
    obtain ⟨more, fs₁, ran, indexed₁, asked⟩ | ⟨e, fs₁, ran, failed⟩ := call_answers indexed call
    · obtain ⟨more', fs₂, ran', indexed₂, asked'⟩ | ⟨e, fs₂, ran', failed⟩ := inductionHypothesis indexed₁
      · refine .inl ⟨more ++ more', fs₂, ?_, by rwa [← List.append_assoc], ?_⟩
        · simp only [runCalls, bind, EStateM.bind, ran, ran', pure, EStateM.pure]
        · rw [List.map_append, asked, asked', ← List.filterMap_append, List.singleton_append]
      · refine .inr ⟨e, fs₂, ?_, failed.imp_right ?_⟩
        · simp only [runCalls, bind, EStateM.bind, ran, ran']
        · rintro ⟨kind, r, member, isNaN⟩
          exact ⟨kind, r, List.mem_cons_of_mem _ member, isNaN⟩
    · refine .inr ⟨e, fs₁, ?_, failed.imp_right ?_⟩
      · simp only [runCalls, bind, EStateM.bind, ran]
      · rintro ⟨kind, r, member, isNaN⟩
        refine ⟨kind, r, ?_, isNaN⟩
        rw [List.mem_singleton.1 member]
        exact List.mem_cons_self

/-! ## Constants that share an index -/

/-- Constants with equal keys are the same, unless they are numbers. -/
theorem constant_cases {address : Nat} {v w : TValue N} (first : IsConstant v) (second : IsConstant w)
    (equal : rawequalObj (constantKey address v) (constantKey address w) = true) :
    v = w ∨ ∃ m n, v = .number m ∧ w = .number n ∧ numeq m n = true := by
  cases v <;> cases w <;> simp_all [IsConstant, constantKey, rawequalObj]

/-- Constants are kept exactly when equal numbers that are asked for are identical. -/
theorem Indexed.keeps_iff (indexed : Indexed mp fs returned) :
    KeepsConstants fs returned ↔ ∀ (a b : N) (i j : Int), (.number a, i) ∈ returned → (.number b, j) ∈ returned →
      numeq a b = true → a = b := by
  have castNum_inj {i j : Int} (first : 0 ≤ i ∧ i < fs.nk) (second : 0 ≤ j ∧ j < fs.nk)
      (same : (castNum i : N) = castNum j) : i = j := by
    rw [← number2int_castNum (N := N) (indexed.inInt first.1 first.2), same,
      number2int_castNum (indexed.inInt second.1 second.2)]
  constructor
  · intro keeps a b i j member member' equal
    obtain ⟨present, range⟩ := indexed.index _ i member
    obtain ⟨present', range'⟩ := indexed.index _ j member'
    have isKey : IsKey (.number b : TValue N) := ⟨by simp, GafqNumber.numeq_trans (GafqNumber.numeq_symm equal) equal⟩
    have same : fs.h.value mp (.number a) = fs.h.value mp (.number b) := value_of_rawequal fs.h isKey equal
    simp only [constantKey] at present present'
    rw [present, present'] at same
    obtain rfl := castNum_inj range range' (TValue.number.inj same)
    have first := (keeps _ i member).2.2
    have second := (keeps _ i member').2.2
    rw [first] at second
    exact TValue.number.inj second
  · intro apart v i member
    obtain ⟨present, range⟩ := indexed.index v i member
    obtain ⟨isConstant, isKey⟩ := indexed.constants v i member
    refine ⟨range.1, range.2, ?_⟩
    -- the first constant that has been asked for under this key
    obtain ⟨w, j, listed, equal, same, stored⟩ := indexed.entry _ _ isKey present
    obtain rfl := castNum_inj range (indexed.index w j listed).2 same
    rw [stored]
    obtain same | ⟨m, n, rfl, rfl, equal⟩ := constant_cases isConstant (indexed.constants w i listed).1 equal
    · exact same.symm
    · rw [apart m n i i member listed equal]

end

theorem newConstants_indexed (mp : MainPosition N) (address : Nat) : Indexed mp (newConstants address) [] := by
  have new : (Table.new {} 0 0 : EStateM.Result TableError (Table N) Unit) = .ok () .empty := rfl
  obtain ⟨t, ran, wf, values⟩ | ⟨t, ran⟩ := @Table.new_spec _ _ mp 0 0 (Nat.zero_le _)
  · rw [new] at ran
    cases ran
    refine ⟨wf, by simp [newConstants], by simp [newConstants], by simp, by simp, fun key n _ present => ?_⟩
    rw [newConstants, values key] at present
    cases present
  · rw [new] at ran
    cases ran

omit [GafqNumber N] in
/-- The numbers that indices are returned for are those that are asked for. -/
theorem exists_returned_iff {returned : List (TValue N × Int)} {calls : List (ConstantCall N)}
    (asked : returned.map Prod.fst = calls.filterMap ConstantCall.value) (r : N) :
    (∃ i, (.number r, i) ∈ returned) ↔ .numberK r ∈ calls := by
  have member : (∃ i, (.number r, i) ∈ returned) ↔ .number r ∈ returned.map Prod.fst := by simp
  rw [member, asked, List.mem_filterMap]
  constructor
  · intro ⟨call, listed, value⟩
    cases call <;> simp_all [ConstantCall.value]
  · intro listed
    exact ⟨_, listed, rfl⟩

/-- Through every sequence of calls every index stays below `nk` and the constant that has been asked for is there,
exactly when not both zeros have been asked for. -/
theorem constants_kept_iff (mp : MainPosition Binary64) (address : Nat) (calls : List (ConstantCall Binary64)) :
    match runCalls mp calls (newConstants address) with
    | .ok returned fs => returned.map Prod.fst = calls.filterMap ConstantCall.value ∧
        (KeepsConstants fs returned ↔ ¬ (.numberK Binary64.zero ∈ calls ∧ .numberK Binary64.negativeZero ∈ calls))
    | .error e _ => IsOverflow e ∨ e = .table .indexNaN ∧ ∃ r, .numberK r ∈ calls ∧ r.isNaN = true := by
  obtain ⟨returned, fs, ran, indexed, asked⟩ | ⟨e, fs, ran, failed⟩ := calls_answer calls (newConstants_indexed mp address)
  · rw [ran]
    refine ⟨asked, ?_⟩
    rw [← @Binary64.identical_iff fun r => .numberK r ∈ calls]
    simp only [← exists_returned_iff asked]
    constructor
    · intro keeps a b ⟨i, first⟩ ⟨j, second⟩ equal
      exact indexed.keeps_iff.1 keeps a b i j first second equal
    · intro identical
      exact indexed.keeps_iff.2 fun a b i j first second => identical a b ⟨i, first⟩ ⟨j, second⟩
  · rw [ran]
    refine failed.imp_right fun ⟨kind, r, member, notSelf⟩ => ⟨kind, r, member, ?_⟩
    exact Binary64.isNaN_of_notSelf notSelf

/-- The source's main position for numbers that are bit patterns; the words of a zero are not used. -/
def binary64Position : MainPosition Binary64 :=
  sourcePosition id id (fun x => if x.isZero then 0 else x.words) fun {a b} equal => by
    obtain rfl | ⟨isZero, isZero'⟩ := Binary64.eq_cases equal
    · rfl
    · rw [if_pos isZero, if_pos isZero']

theorem constants_both_zeros :
    ∃ returned fs, runCalls binary64Position [.numberK Binary64.zero, .numberK Binary64.negativeZero] (newConstants 0) =
      .ok returned fs ∧ ¬ KeepsConstants fs returned := by
  have ran : ∃ fs, runCalls binary64Position [.numberK Binary64.zero, .numberK Binary64.negativeZero] (newConstants 0) =
      .ok [(.number Binary64.zero, 0), (.number Binary64.negativeZero, 0)] fs ∧ fs.k 0 = .number Binary64.zero :=
    ⟨_, rfl, rfl⟩
  obtain ⟨fs, ran, stored⟩ := ran
  refine ⟨_, fs, ran, fun keeps => ?_⟩
  have stored' := (keeps (.number Binary64.negativeZero) 0 (by simp)).2.2
  rw [Int.toNat_zero, stored] at stored'
  revert stored'
  decide

end Gafq.Code
