import Gafq.AuxLib.Reference
import Gafq.Verified.Insertion
import Gafq.Verified.Constants

/-! # References

The references that `gafqL_ref` has given out are the numbers from 1 to some `m`.  Those that are free are
chained through the table and end in a `nil`, which is a hole in the array; but a new reference is only made
when no number is free, and then there are no holes and the length of the table is `m`.
-/

namespace Gafq.AuxLib

open TabLib Table

variable {N : Type} [GafqNumber N] {mp : MainPosition N} {str2d : Nat → Option N} {mem : Memory} {depth fuel m most : Nat}
  {t t' : Table N} {v : TValue N} {i j r : Int} {live : List (Int × TValue N)} {free : List Int}

/-! ## Reads after stores -/

theorem rawequal_castNum (inIntI : InInt i) (inIntJ : InInt j) :
    rawequalObj (.number (castNum i)) (.number (castNum j) : TValue N) = true ↔ i = j := by
  constructor
  · intro equal
    have same := arrayindex_of_rawequal inIntI equal
    rw [arrayindex_castNum inIntJ] at same
    exact same.symm
  · rintro rfl
    exact GafqNumber.castNum_self inIntI

theorem rawgeti_stored (stored : Deposits mp t (.number (castNum j)) v t') (inIntI : InInt i) (inIntJ : InInt j) :
    rawgeti mp t' i = if i = j then v else rawgeti mp t i := by
  rw [rawgeti_eq inIntI, rawgeti_eq inIntI, stored.value _ rfl]
  simp only [rawequal_castNum inIntI inIntJ]

theorem rawseti_present (intact : Intact mp t) (inInt : InInt j) (present : rawgeti mp t j ≠ .nil) (v : TValue N) :
    ∃ t', rawseti mp depth mem j v t = .ok () t' ∧ Deposits mp t (.number (castNum j)) v t' := by
  rw [rawgeti_eq inInt] at present
  exact intact.rawseti_present inInt present v

theorem rawseti_stores (intact : Intact mp t) (inInt : InInt j) (v : TValue N) :
    (∃ t', rawseti mp (depth + 2) mem j v t = .ok () t' ∧ Deposits mp t (.number (castNum j)) v t') ∨
    ∃ e t', rawseti mp (depth + 2) mem j v t = .error e t' ∧ Exhausted e := by
  obtain stores | ⟨e, t', ran, refused⟩ := @Intact.storeAt_setnum _ _ depth mp mem t intact j inInt v
  · exact .inl stores
  · exact .inr ⟨e, t', ran, refused.exhausted⟩

/-! ## The free references -/

/-- The list goes from the index through the table and ends in a `nil`. -/
def FreeFrom (mp : MainPosition N) (t : Table N) : Int → List Int → Prop
  | i, [] => rawgeti mp t i = .nil
  | i, r :: rest => rawgeti mp t i = .number (castNum r) ∧ FreeFrom mp t r rest

theorem FreeFrom.congr (freeFrom : FreeFrom mp t i free) (first : rawgeti mp t' j = rawgeti mp t i)
    (others : ∀ r ∈ free, rawgeti mp t' r = rawgeti mp t r) : FreeFrom mp t' j free := by
  induction free generalizing i j with
  | nil => exact first.trans freeFrom
  | cons r rest inductionHypothesis =>
    refine ⟨first.trans freeFrom.1, inductionHypothesis freeFrom.2 (others r (by simp)) fun r' inRest => ?_⟩
    exact others r' (by simp [inRest])

/-- The numbers from 1 to `m`. -/
def numbered (m : Nat) : List Int := (List.range m).map fun i : Nat => (i : Int) + 1

theorem mem_numbered : r ∈ numbered m ↔ 1 ≤ r ∧ r ≤ m := by
  simp only [numbered, List.mem_map, List.mem_range]
  constructor
  · rintro ⟨i, below, rfl⟩
    omega
  · intro within
    exact ⟨(r - 1).toNat, by omega, by omega⟩

theorem numbered_nodup (m : Nat) : (numbered m).Nodup :=
  List.nodup_range.map fun _ _ same => Int.ofNat.inj (add_right_cancel same)

theorem numbered_succ (m : Nat) : numbered (m + 1) = numbered m ++ [(m : Int) + 1] := by
  simp [numbered, List.range_succ]

/-! ## The invariant -/

/-- The references in use are `live`, with their values, and those in `free`. -/
structure References (mp : MainPosition N) (t : Table N) (live : List (Int × TValue N)) (free : List Int) (m : Nat) : Prop where
  intact : Intact mp t
  inInt : m < 2 ^ 31
  perm : (live.map Prod.fst ++ free).Perm (numbered m)
  registered : ∀ r v, (r, v) ∈ live → v ≠ .nil ∧ rawgeti mp t r = v
  freelist : FreeFrom mp t freelistRef free
  absent : ∀ j, InInt j → ¬ (0 ≤ j ∧ j ≤ m) → rawgeti mp t j = .nil

namespace References

theorem nodup (references : References mp t live free m) : (live.map Prod.fst ++ free).Nodup :=
  references.perm.nodup_iff.mpr (numbered_nodup m)

theorem isRef (references : References mp t live free m) : (r ∈ live.map Prod.fst ∨ r ∈ free) ↔ 1 ≤ r ∧ r ≤ m := by
  rw [← List.mem_append, references.perm.mem_iff, mem_numbered]

theorem length (references : References mp t live free m) : live.length + free.length = m := by
  have same := references.perm.length_eq
  simpa [numbered] using same

theorem ref_inInt (references : References mp t live free m) (within : 0 ≤ r ∧ r ≤ m) : InInt r :=
  ⟨by omega, by have := references.inInt; omega⟩

theorem free_inInt (references : References mp t live free m) (isFree : r ∈ free) : 1 ≤ r ∧ InInt r := by
  have within := references.isRef.mp (.inr isFree)
  exact ⟨within.1, references.ref_inInt (by omega)⟩

theorem live_inInt (references : References mp t live free m) (isLive : (r, v) ∈ live) : 1 ≤ r ∧ InInt r := by
  have within := references.isRef.mp (.inl (List.mem_map_of_mem (f := Prod.fst) isLive))
  exact ⟨within.1, references.ref_inInt (by omega)⟩

/-- When no reference is free, the length of the table is the number of live ones. -/
theorem getn (references : References mp t live [] m) : ∃ fuel, t.getn mp fuel = some (m : Int) := by
  have small := references.inInt
  have largest : maxInt = 2 ^ 31 - 3 := rfl
  have element (j : Nat) (below : j < 2 ^ 31) : t.index mp j = rawgeti mp t j := by
    rw [index, toInt_eq below]
    rfl
  refine @Intact.getn_eq _ _ mp t references.intact (2 ^ 31) m (by omega) (le_refl _) ?_ (fun j positive within => ?_) (fun j beyond below => ?_) small
  · -- the largest `unsigned` index that is read is the smallest `int`
    exact references.absent (-2 ^ 31) (by decide) (by omega)
  · rw [element j (by omega)]
    obtain isLive | isFree := (references.isRef (r := (j : Int))).mpr ⟨by omega, by omega⟩
    · obtain ⟨⟨r, v⟩, inLive, same⟩ := List.mem_map.mp isLive
      obtain ⟨valued, here⟩ := references.registered r v inLive
      rw [← same, here]
      exact valued
    · cases isFree
  · rw [element j below]
    exact references.absent j ⟨by omega, by omega⟩ (by omega)

/-- Only the contents count. -/
theorem congr (references : References mp t live free m) (intact' : Intact mp t') (same : ∀ j, InInt j → rawgeti mp t' j = rawgeti mp t j) :
    References mp t' live free m where
  intact := intact'
  inInt := references.inInt
  perm := references.perm
  registered r v isLive := by
    rw [same r (references.live_inInt isLive).2]
    exact references.registered r v isLive
  freelist := references.freelist.congr (same 0 (by decide)) fun r isFree => same r (references.free_inInt isFree).2
  absent j inInt outside := by
    rw [same j inInt]
    exact references.absent j inInt outside

end References

/-- However many iterations it takes, the length is one number. -/
theorem getn_unique {fuel fuel' : Nat} {n n' : Int} (first : t.getn mp fuel = some n) (second : t.getn mp fuel' = some n') : n = n' := by
  rw [Table.getn] at first second
  split at first
  · rename_i inArray
    rw [if_pos inArray] at second
    exact Base.Ends.unique ⟨fuel, first⟩ ⟨fuel', second⟩
  · rename_i notInArray
    rw [if_neg notInArray] at second
    split at first
    · rename_i isDummy
      rw [if_pos isDummy] at second
      exact Option.some.inj (first.symm.trans second)
    · rename_i notDummy
      rw [if_neg notDummy] at second
      exact Base.Ends.unique ⟨fuel, first⟩ ⟨fuel', second⟩

/-! ## The calls -/

theorem ref_nil : ref mp str2d mem depth fuel .nil t = .ok refnil t := rfl

theorem ref_reuse (valued : v ≠ .nil) (first : tointeger str2d (rawgeti mp t freelistRef) = r) (notZero : r ≠ 0) :
    ref mp str2d mem depth fuel v t = (raw (rawseti mp depth mem freelistRef (rawgeti mp t r)) >>= fun _ =>
      raw (rawseti mp depth mem r v) >>= fun _ => pure r) t := by
  have notNil : v.isNil = false := by simpa using valued
  have started : ref mp str2d mem depth fuel v t =
      (if tointeger str2d (rawgeti mp t freelistRef) ≠ 0 then do
        raw (rawseti mp depth mem freelistRef (rawgeti mp t (tointeger str2d (rawgeti mp t freelistRef))))
        raw (rawseti mp depth mem (tointeger str2d (rawgeti mp t freelistRef)) v)
        pure (tointeger str2d (rawgeti mp t freelistRef))
      else do
        let n ← auxGetn mp fuel
        raw (rawseti mp depth mem (increment n) v)
        pure (increment n)) t := by
    rw [ref, if_neg (by simp [notNil])]
    rfl
  rw [started, first, if_pos notZero]

theorem ref_create (valued : v ≠ .nil) (noneFree : tointeger str2d (rawgeti mp t freelistRef) = 0) :
    ref mp str2d mem depth fuel v t = (auxGetn mp fuel >>= fun n => raw (rawseti mp depth mem (increment n) v) >>= fun _ =>
      pure (increment n)) t := by
  have notNil : v.isNil = false := by simpa using valued
  have started : ref mp str2d mem depth fuel v t =
      (if tointeger str2d (rawgeti mp t freelistRef) ≠ 0 then do
        raw (rawseti mp depth mem freelistRef (rawgeti mp t (tointeger str2d (rawgeti mp t freelistRef))))
        raw (rawseti mp depth mem (tointeger str2d (rawgeti mp t freelistRef)) v)
        pure (tointeger str2d (rawgeti mp t freelistRef))
      else do
        let n ← auxGetn mp fuel
        raw (rawseti mp depth mem (increment n) v)
        pure (increment n)) t := by
    rw [ref, if_neg (by simp [notNil])]
    rfl
  rw [started, noneFree, if_neg (by simp)]

theorem unref_eq (positive : 0 ≤ r) :
    unref mp mem depth r t = (raw (rawseti mp depth mem r (rawgeti mp t freelistRef)) >>= fun _ =>
      raw (rawseti mp depth mem freelistRef (.number (castNum r)))) t := by
  rw [unref, if_pos positive]
  rfl

theorem increment_eq (small : m + 1 < 2 ^ 31) : increment m = (m : Int) + 1 := by
  have inRange : (((m : Int) + 1) % 2 ^ 32).toNat = m + 1 := by omega
  rw [increment, inRange, toInt_eq small]
  rfl

namespace References

/-- The first free reference is given out again. -/
theorem reuse (references : References mp t live (r :: free) m) (valued : v ≠ .nil) :
    (∃ t', References mp t' ((r, v) :: live) free m ∧ ∀ fuel, ref mp str2d mem (depth + 2) fuel v t = .ok r t') ∨
    ∃ e t', Exhausted e ∧ ∀ fuel, ref mp str2d mem (depth + 2) fuel v t = .error (.table e) t' := by
  obtain ⟨positive, inInt⟩ := references.free_inInt (r := r) (by simp)
  have zeroInt : InInt freelistRef := by decide
  obtain ⟨first, rest⟩ := references.freelist
  have reused : tointeger str2d (rawgeti mp t freelistRef) = r := by
    rw [first]
    exact Code.number2int_castNum inInt
  obtain ⟨t₁, ran₁, stored₁⟩ := @rawseti_present _ _ mp mem (depth + 2) t _ references.intact zeroInt (by simp [first]) (rawgeti mp t r)
  have started fuel : ref mp str2d mem (depth + 2) fuel v t = (raw (rawseti mp (depth + 2) mem r v) >>= fun _ => pure r) t₁ := by
    rw [ref_reuse valued reused (by omega), bind_ok (raw_ok ran₁)]
  obtain ⟨t₂, ran₂, stored₂⟩ | ⟨e, t₂, ran₂, exhausted⟩ := @rawseti_stores _ _ mp mem depth t₁ _ stored₁.intact inInt v
  · have value (j : Int) (inIntJ : InInt j) : rawgeti mp t₂ j =
        if j = r then v else if j = freelistRef then rawgeti mp t r else rawgeti mp t j := by
      rw [rawgeti_stored stored₂ inIntJ inInt, rawgeti_stored stored₁ inIntJ zeroInt]
    have nodup := references.nodup
    rw [List.nodup_append] at nodup
    obtain ⟨-, nodupFree, apart⟩ := nodup
    refine .inl ⟨t₂, ?_, fun fuel => by rw [started, bind_ok (raw_ok ran₂)]; rfl⟩
    constructor
    case intact => exact stored₂.intact
    case inInt => exact references.inInt
    case perm => exact List.perm_middle.symm.trans references.perm
    case registered =>
      intro r' v' isLive
      obtain same | isLive := List.mem_cons.mp isLive
      · cases same
        rw [value r inInt, if_pos rfl]
        exact ⟨valued, rfl⟩
      · obtain ⟨positive', inInt'⟩ := references.live_inInt isLive
        have other : r' ≠ r := apart r' (List.mem_map_of_mem isLive) r (by simp)
        rw [value r' inInt', if_neg other, if_neg (by rw [freelistRef]; omega)]
        exact references.registered r' v' isLive
    case freelist =>
      refine rest.congr ?_ fun r' isFree => ?_
      · rw [value _ zeroInt, if_neg (by rw [freelistRef]; omega), if_pos rfl]
      · obtain ⟨positive', inInt'⟩ := references.free_inInt (r := r') (by simp [isFree])
        have other : r' ≠ r := by
          rintro rfl
          exact (List.nodup_cons.mp nodupFree).1 isFree
        rw [value r' inInt', if_neg other, if_neg (by rw [freelistRef]; omega)]
    case absent =>
      intro j inIntJ outside
      have within := references.isRef.mp (.inr (List.mem_cons_self (a := r)))
      rw [value j inIntJ, if_neg (by omega), if_neg (by rw [freelistRef]; omega)]
      exact references.absent j inIntJ outside
  · exact .inr ⟨e, t₂, exhausted, fun fuel => by rw [started, bind_error (raw_error ran₂)]⟩

/-- A new reference is made. -/
theorem create (references : References mp t live [] m) (room : m + 1 < 2 ^ 31) (valued : v ≠ .nil) :
    (∃ t', References mp t' (((m : Int) + 1, v) :: live) [] (m + 1) ∧
      ∀ fuel, t.getn mp fuel = some (m : Int) → ref mp str2d mem (depth + 2) fuel v t = .ok ((m : Int) + 1) t') ∨
    ∃ e t', Exhausted e ∧
      ∀ fuel, t.getn mp fuel = some (m : Int) → ref mp str2d mem (depth + 2) fuel v t = .error (.table e) t' := by
  have inInt : InInt ((m : Int) + 1) := ⟨by omega, by omega⟩
  have noneFree : tointeger str2d (rawgeti mp t freelistRef) = 0 := by
    rw [references.freelist]
    rfl
  have started {fuel} (found : t.getn mp fuel = some (m : Int)) : ref mp str2d mem (depth + 2) fuel v t =
      (raw (rawseti mp (depth + 2) mem ((m : Int) + 1) v) >>= fun _ => pure ((m : Int) + 1)) t := by
    rw [ref_create valued noneFree, bind_ok (auxGetn_ok found), increment_eq room]
  obtain ⟨t', ran, stored⟩ | ⟨e, t', ran, exhausted⟩ := @rawseti_stores _ _ mp mem depth t _ references.intact inInt v
  · refine .inl ⟨t', ?_, fun fuel found => by rw [started found, bind_ok (raw_ok ran)]; rfl⟩
    have kept {j : Int} (inIntJ : InInt j) (other : j ≠ (m : Int) + 1) : rawgeti mp t' j = rawgeti mp t j := by
      rw [rawgeti_stored stored inIntJ inInt, if_neg other]
    constructor
    case intact => exact stored.intact
    case inInt => exact room
    case perm =>
      have perm := references.perm
      simp only [List.append_nil] at perm
      simp only [List.map_cons, List.append_nil, numbered_succ]
      exact (perm.cons _).trans (List.perm_append_singleton _ _).symm
    case registered =>
      intro r v' isLive
      obtain same | isLive := List.mem_cons.mp isLive
      · cases same
        rw [rawgeti_stored stored inInt inInt, if_pos rfl]
        exact ⟨valued, rfl⟩
      · have within := references.isRef.mp (.inl (List.mem_map_of_mem (f := Prod.fst) isLive))
        rw [kept (references.live_inInt isLive).2 (by omega)]
        exact references.registered r v' isLive
    case freelist => exact (kept (by decide) (by rw [freelistRef]; omega)).trans references.freelist
    case absent =>
      intro j inIntJ outside
      push_cast at outside
      rw [kept inIntJ (by omega)]
      exact references.absent j inIntJ (by omega)
  · exact .inr ⟨e, t', exhausted, fun fuel found => by rw [started found, bind_error (raw_error ran)]⟩

/-- A live reference becomes the first free one. -/
theorem release (references : References mp t live free m) (isLive : (r, v) ∈ live) :
    (∃ t', unref mp mem (depth + 2) r t = .ok () t' ∧ References mp t' (live.eraseP (·.1 == r)) (r :: free) m) ∨
    ∃ e t', unref mp mem (depth + 2) r t = .error (.table e) t' ∧ Exhausted e := by
  obtain ⟨positive, inInt⟩ := references.live_inInt isLive
  have zeroInt : InInt freelistRef := by decide
  obtain ⟨valued, here⟩ := references.registered r v isLive
  obtain ⟨t₁, ran₁, stored₁⟩ :=
    @rawseti_present _ _ mp mem (depth + 2) t _ references.intact inInt (by rwa [here]) (rawgeti mp t freelistRef)
  rw [unref_eq (by omega), bind_ok (raw_ok ran₁)]
  obtain ⟨t₂, ran₂, stored₂⟩ | ⟨e, t₂, ran₂, exhausted⟩ :=
    @rawseti_stores _ _ mp mem depth t₁ _ stored₁.intact zeroInt (.number (castNum r))
  · have value (j : Int) (inIntJ : InInt j) : rawgeti mp t₂ j =
        if j = freelistRef then .number (castNum r) else if j = r then rawgeti mp t freelistRef else rawgeti mp t j := by
      rw [rawgeti_stored stored₂ inIntJ zeroInt, rawgeti_stored stored₁ inIntJ inInt]
    have kept {j : Int} (inIntJ : InInt j) (notFirst : j ≠ freelistRef) (other : j ≠ r) : rawgeti mp t₂ j = rawgeti mp t j := by
      rw [value j inIntJ, if_neg notFirst, if_neg other]
    obtain ⟨⟨r', v'⟩, before, after, -, same, split, erased⟩ := List.exists_of_eraseP (p := (·.1 == r)) isLive (by simp)
    obtain rfl : r' = r := by simpa using same
    have perm : ((live.eraseP (·.1 == r')).map Prod.fst ++ r' :: free).Perm (numbered m) := by
      refine List.Perm.trans ?_ references.perm
      rw [erased, split]
      simp only [List.map_append, List.map_cons, List.append_assoc, List.cons_append]
      refine List.Perm.append_left _ ?_
      exact List.perm_middle
    have nodup := perm.nodup_iff.mpr (numbered_nodup m)
    rw [List.nodup_append] at nodup
    obtain ⟨-, nodupFree, apart⟩ := nodup
    refine .inl ⟨t₂, raw_ok ran₂, ?_⟩
    constructor
    case intact => exact stored₂.intact
    case inInt => exact references.inInt
    case perm => exact perm
    case registered =>
      intro r v isLive'
      have wasLive := List.mem_of_mem_eraseP isLive'
      obtain ⟨positive', inInt'⟩ := references.live_inInt wasLive
      rw [kept inInt' (by rw [freelistRef]; omega) (apart r (List.mem_map_of_mem isLive') r' (by simp))]
      exact references.registered r v wasLive
    case freelist =>
      refine ⟨?_, references.freelist.congr ?_ fun r isFree => ?_⟩
      · rw [value _ zeroInt, if_pos rfl]
      · rw [value _ inInt, if_neg (by rw [freelistRef]; omega), if_pos rfl]
      · obtain ⟨positive', inInt'⟩ := references.free_inInt isFree
        refine kept inInt' (by rw [freelistRef]; omega) ?_
        rintro rfl
        exact (List.nodup_cons.mp nodupFree).1 isFree
    case absent =>
      intro j inIntJ outside
      have within := references.isRef.mp (.inl (List.mem_map_of_mem (f := Prod.fst) isLive))
      rw [kept inIntJ (by rw [freelistRef]; omega) (by simp only at within; omega)]
      exact references.absent j inIntJ outside
  · exact .inr ⟨e, t₂, raw_error ran₂, exhausted⟩

/-- The value is not registered before it is known which reference it gets. -/
theorem ref_getn (references : References mp t live [] m) (valued : v ≠ .nil)
    (ran : ref mp str2d mem depth fuel v t = .ok r t') : t.getn mp fuel = some (m : Int) := by
  have noneFree : tointeger str2d (rawgeti mp t freelistRef) = 0 := by
    rw [references.freelist]
    rfl
  rw [ref_create valued noneFree] at ran
  cases found : t.getn mp fuel with
  | none =>
    have stuck : auxGetn mp fuel t = .error .outOfFuel t := by rw [auxGetn, found]
    rw [bind_error stuck] at ran
    cases ran
  | some n =>
    obtain ⟨fuel', ends⟩ := references.getn
    rw [getn_unique found ends]

/-- Whatever `gafqL_ref` returns, it is a reference that is not live. -/
theorem ref_step (references : References mp t live free m) (room : live.length + 1 < 2 ^ 31) (valued : v ≠ .nil)
    (ran : ref mp str2d mem (depth + 2) fuel v t = .ok r t') :
    ∃ free' m', m' ≤ max m (live.length + 1) ∧ References mp t' ((r, v) :: live) free' m' := by
  cases free with
  | nil =>
    have length : live.length = m := references.length
    have found := references.ref_getn valued ran
    obtain ⟨t₁, references', ran'⟩ | ⟨e, t₁, -, ran'⟩ :=
      @create _ _ mp str2d mem depth m t v live references (by omega) valued
    · obtain ⟨rfl, rfl⟩ := EStateM.Result.ok.inj ((ran' fuel found).symm.trans ran)
      exact ⟨[], m + 1, by omega, references'⟩
    · cases (ran' fuel found).symm.trans ran
  | cons r' rest =>
    obtain ⟨t₁, references', ran'⟩ | ⟨e, t₁, -, ran'⟩ := @reuse _ _ mp str2d mem depth m t v r' live rest references valued
    · obtain ⟨rfl, rfl⟩ := EStateM.Result.ok.inj ((ran' fuel).symm.trans ran)
      exact ⟨rest, m, by omega, references'⟩
    · cases (ran' fuel).symm.trans ran

end References

/-! ## Runs -/

/-- Calls of `gafqL_ref` and `gafqL_unref` on a table that has no integer keys to begin with: the references that are
live with their values, and how many have been live at once.  The collector marks keys of empty entries dead. -/
inductive RefRun (mp : MainPosition N) (str2d : Nat → Option N) : Table N → List (Int × TValue N) → Nat → Prop
  | start {t : Table N} (built : Built mp t) (noIntegers : ∀ j, InInt j → rawgeti mp t j = .nil) : RefRun mp str2d t [] 0
  | ref {t t' : Table N} {live : List (Int × TValue N)} {most : Nat} (mem : Memory) (depth fuel : Nat) {v : TValue N} {r : Int}
      (run : RefRun mp str2d t live most) (valued : v ≠ .nil) (ran : ref mp str2d mem (depth + 2) fuel v t = .ok r t') :
      RefRun mp str2d t' ((r, v) :: live) (max most (live.length + 1))
  | refnil {t t' : Table N} {live : List (Int × TValue N)} {most : Nat} (mem : Memory) (depth fuel : Nat) {r : Int}
      (run : RefRun mp str2d t live most) (ran : AuxLib.ref mp str2d mem (depth + 2) fuel .nil t = .ok r t') :
      RefRun mp str2d t' live most
  | unref {t t' : Table N} {live : List (Int × TValue N)} {most : Nat} (mem : Memory) (depth : Nat) {r : Int} {v : TValue N}
      (run : RefRun mp str2d t live most) (isLive : (r, v) ∈ live) (ran : unref mp mem (depth + 2) r t = .ok () t') :
      RefRun mp str2d t' (live.eraseP (·.1 == r)) most
  | removeentry {t : Table N} {live : List (Int × TValue N)} {most : Nat} (i : Nat) (run : RefRun mp str2d t live most)
      (empty : (t.node i).val = .nil) : RefRun mp str2d (t.removeentry i) live most

theorem References.start (intact : Intact mp t) (noIntegers : ∀ j, InInt j → rawgeti mp t j = .nil) : References mp t [] [] 0 where
  intact := intact
  inInt := by decide
  perm := List.Perm.refl []
  registered r v isLive := by cases isLive
  freelist := noIntegers freelistRef (by decide)
  absent j inInt _ := noIntegers j inInt

theorem removeentry_rawgeti (intact : Intact mp t) {i : Nat} (empty : (t.node i).val = .nil) (inInt : InInt j) :
    rawgeti mp (t.removeentry i) j = rawgeti mp t j := by
  rw [rawgeti_eq inInt, rawgeti_eq inInt]
  refine intact.value_congr (intact.removeentry empty) rfl rfl (fun key v => ?_) rfl
  have keysEq := t.removeentry_keys i
  constructor
  · rintro ⟨n, rfl, rfl, used, some⟩
    rw [removeentry_val] at some
    have other : n ≠ i := by
      rintro rfl
      exact some empty
    rw [keysEq, Function.update_of_ne other] at used ⊢
    exact ⟨n, rfl, (removeentry_val t i n).symm, used, by rwa [removeentry_val]⟩
  · rintro ⟨n, rfl, rfl, used, some⟩
    have other : n ≠ i := by
      rintro rfl
      exact some empty
    have same : (t.removeentry i).keys n = t.keys n := by rw [keysEq, Function.update_of_ne other]
    exact ⟨n, same, removeentry_val t i n, used, some⟩

theorem RefRun.references (run : RefRun mp str2d t live most) (few : most < 2 ^ 31) :
    live.length ≤ most ∧ ∃ free m, m ≤ most ∧ References mp t live free m := by
  induction run with
  | start built noIntegers => exact ⟨le_refl 0, [], 0, le_refl 0, .start built.intact noIntegers⟩
  | @ref t t' live most mem depth fuel v r run valued ran inductionHypothesis =>
    obtain ⟨short, free, m, bound, references⟩ := inductionHypothesis (by omega)
    obtain ⟨free', m', bound', references'⟩ := references.ref_step (by omega) valued ran
    exact ⟨by simp, free', m', by omega, references'⟩
  | refnil mem depth fuel run ran inductionHypothesis =>
    rw [ref_nil] at ran
    obtain ⟨-, rfl⟩ := EStateM.Result.ok.inj ran
    exact inductionHypothesis few
  | @unref t t' live most mem depth r v run isLive ran inductionHypothesis =>
    obtain ⟨short, free, m, bound, references⟩ := inductionHypothesis few
    have erased : (live.eraseP (·.1 == r)).length ≤ live.length := List.eraseP_sublist.length_le
    obtain ⟨t₁, ran', references'⟩ | ⟨e, t₁, ran', -⟩ := @References.release _ _ mp mem depth m t v r live free references isLive
    · obtain ⟨-, rfl⟩ := EStateM.Result.ok.inj (ran'.symm.trans ran)
      exact ⟨by omega, r :: free, m, bound, references'⟩
    · cases ran'.symm.trans ran
  | removeentry i run empty inductionHypothesis =>
    obtain ⟨short, free, m, bound, references⟩ := inductionHypothesis few
    refine ⟨short, free, m, bound, references.congr (references.intact.removeentry empty) fun j inInt => ?_⟩
    exact removeentry_rawgeti references.intact empty inInt

/-- A table with the first `c` references, and an array part with room for all but one. -/
def filled (c : Nat) : Table Int :=
  { (empty : Table Int) with
    array := fun i => if i < c then .boolean true else .nil
    sizearray := 2147483646
    lsizenode := 1
    isDummy := false
    lastfree := 2 }

/-- Without a number under `t[0]`, the length is the number of references. -/
theorem RefRun.create {t t' : Table Int} {live : List (Int × TValue Int)} {most : Nat}
    (run : RefRun intPosition (fun _ => none) t live most) (few : most < 2 ^ 31) (noneFree : rawgeti intPosition t freelistRef = .nil)
    (stored : rawseti intPosition 2 {} (increment live.length) (.boolean true) t = .ok () t') :
    RefRun intPosition (fun _ => none) t' ((increment live.length, .boolean true) :: live) (max most (live.length + 1)) := by
  obtain ⟨-, free, m, -, references⟩ := run.references few
  cases free with
  | cons r rest =>
    have first := references.freelist.1
    rw [noneFree] at first
    cases first
  | nil =>
    obtain ⟨fuel, found⟩ := references.getn
    have length : live.length = m := references.length
    subst length
    have notNil : (.boolean true : TValue Int) ≠ .nil := by simp
    refine run.ref {} 0 fuel notNil ?_
    rw [ref_create notNil (by rw [noneFree]; rfl), bind_ok (auxGetn_ok found), bind_ok (raw_ok stored)]
    rfl

/-- The table with `INT_MAX` references; the last one is in the hash part. -/
def crowded : Table Int := Base.finalState (rawseti intPosition 2 {} 2147483647 (.boolean true)) (filled 2147483646)

end Gafq.AuxLib
