import Gafq.TabLib.Insert
import Gafq.Verified.NestedRehash
import Gafq.Verified.Boundary

/-! # Insertion into and removal from a sequence

`tinsert` makes at most one new key, `n + 1`; every other store of the two loops finds its key.  So `tremove`
cannot fail, and `tinsert` fails only when the rehash for the new key does.
-/

namespace Gafq

open Base

variable {N : Type} [GafqNumber N] {mp : MainPosition N} {mem : Memory} {depth n : Nat} {t t' : Table N} {k v : TValue N}
  {l : List (TValue N)}

namespace Table

/-! ## Integer keys -/

theorem rawgeti_eq {j : Int} (inInt : InInt j) : rawgeti mp t j = t.value mp (.number (castNum j)) :=
  congrArg t.read (getnum_castNum t inInt)

/-- The keys that are equal to a positive index are those with this index. -/
theorem rawequal_index {j : Int} (positive : 1 ≤ j) (inInt : InInt j) :
    rawequalObj k (.number (castNum j)) = true ↔ arrayindex k = j := by
  constructor
  · intro equal
    exact arrayindex_of_rawequal inInt (rawequalObj_symm equal)
  · intro same
    exact rawequalObj_symm (rawequal_of_arrayindex positive same)

theorem Deposits.index {j : Int} (stored : Deposits mp t (.number (castNum j)) v t') (positive : 1 ≤ j) (inInt : InInt j)
    (live : k.isDeadkey = false) : t'.value mp k = if arrayindex k = j then v else t.value mp k := by
  rw [stored.value k live]
  simp only [rawequal_index positive inInt]

/-- Keys with an index are equal to a number. -/
theorem value_of_index {j : Int} (positive : 1 ≤ j) (same : arrayindex k = j) :
    t.value mp k = t.value mp (.number (castNum j)) := by
  have inInt : InInt j := same ▸ arrayindex_inInt k
  exact value_of_rawequal t (isKey_castNum inInt) (rawequalObj_symm (rawequal_of_arrayindex positive same))

/-- A store under an index that is present does not fail. -/
theorem Intact.rawseti_present (intact : Intact mp t) {j : Int} (inInt : InInt j) (present : t.value mp (.number (castNum j)) ≠ .nil)
    (v : TValue N) : ∃ t', rawseti mp depth mem j v t = .ok () t' ∧ Deposits mp t (.number (castNum j)) v t' := by
  have held : Held (.number (castNum j) : TValue N) := ⟨isKey_castNum inInt, rfl⟩
  have found : t.getSlot mp (.number (castNum j)) ≠ .nilobject := by
    intro missing
    apply present
    rw [value, missing]
    rfl
  have set : setnumWith mp (rehashAndSet mp mem depth) j t = .ok (t.getSlot mp (.number (castNum j))) t := by
    simp only [setnumWith, getnum_castNum t inInt]
    rw [if_pos found]
  have gains : Gains mp t (.number (castNum j)) (t.getSlot mp (.number (castNum j))) t :=
    ⟨intact, slotOf_getSlot held.isKey.ne_nil found, fun _ _ => rfl⟩
  exact ⟨_, storeAt_of_ok set, gains.deposits held v⟩

/-! ## Sequences -/

/-- The positive integer keys hold the list, and `nil` behind it. -/
def Holds (mp : MainPosition N) (t : Table N) (l : List (TValue N)) : Prop :=
  ∀ j : Nat, 1 ≤ j → j < 2 ^ 31 → t.value mp (.number (castNum (j : Int))) = l.getD (j - 1) .nil

theorem Holds.value (holds : Holds mp t l) (positive : 1 ≤ arrayindex k) : t.value mp k = l.getD (arrayindex k - 1).toNat .nil := by
  have inInt := arrayindex_inInt k
  have found := holds (arrayindex k).toNat (by omega) (by have := inInt.2; omega)
  rw [Int.toNat_of_nonneg (by omega)] at found
  rw [value_of_index positive rfl, found, show (arrayindex k - 1).toNat = (arrayindex k).toNat - 1 by omega]

theorem Holds.present (holds : Holds mp t l) (nonNil : .nil ∉ l) {j : Int} (positive : 1 ≤ j) (inside : j ≤ l.length)
    (short : l.length ≤ maxInt) : t.value mp (.number (castNum j)) ≠ .nil := by
  have largest : maxInt = 2 ^ 31 - 3 := rfl
  have element := holds j.toNat (by omega) (by omega)
  rw [Int.toNat_of_nonneg (by omega), List.getD_eq_getElem _ _ (by omega)] at element
  rw [element]
  exact fun isNil => nonNil (isNil ▸ List.getElem_mem _)

/-- The length is the only boundary. -/
theorem Intact.getn_eq (intact : Intact mp t) {top m : Nat} (large : maxInt < top) (small : top ≤ 2 ^ 31) (topAbsent : t.index mp top = .nil)
    (present : ∀ j, 1 ≤ j → j ≤ m → t.index mp j ≠ .nil) (absent : ∀ j, m < j → j < 2 ^ 31 → t.index mp j = .nil) (fits : m < top) :
    ∃ fuel, t.getn mp fuel = some (m : Int) := by
  have size : t.sizearray < 2 ^ 31 := by
    have := intact.chained.sizearray_inInt.2
    omega
  have below (j : Nat) (within : j < 2 ^ 31) (low : LowEnd mp t j) : j ≤ m := by
    by_contra beyond
    obtain none | there := low
    · omega
    · exact there (absent j (by omega) within)
  obtain ⟨fuel, r, ran, n, rfl, bound, low, high⟩ := intact.chained.getn_finds large small topAbsent fun low =>
    Nat.lt_of_le_of_lt (below _ size low) fits
  have upper := below n (by omega) low
  have lower : m ≤ n := by
    by_contra more
    exact present (n + 1) (by omega) (by omega) high
  obtain rfl := Nat.le_antisymm upper lower
  exact ⟨fuel, ran⟩

/-- The store behind the last element appends. -/
theorem Deposits.append (stored : Deposits mp t (.number (castNum ((l.length : Int) + 1))) v t') (holds : Holds mp t l)
    (short : l.length < maxInt) : Holds mp t' (l ++ [v]) := by
  have largest : maxInt = 2 ^ 31 - 3 := rfl
  have inInt : InInt ((l.length : Int) + 1) := ⟨by omega, by omega⟩
  intro j low high
  have inIntJ : InInt (j : Int) := ⟨by omega, by omega⟩
  have value := @Deposits.index _ _ mp t t' (.number (castNum (j : Int))) v _ stored (by omega) inInt rfl
  rw [value, arrayindex_castNum inIntJ, holds j low high]
  by_cases here : j = l.length + 1
  · subst here
    simp
  · rw [if_neg (by omega)]
    by_cases inside : j - 1 < l.length
    · rw [List.getD_append _ _ _ _ inside]
    · rw [List.getD_eq_default _ _ (by omega), List.getD_eq_default _ _ (by simp; omega)]

end Table

namespace TabLib

open Table

/-! ## The loops -/

/-- The elements between `pos` and `i` are moved up. -/
def MovedUp (mp : MainPosition N) (pos i : Int) (t t' : Table N) : Prop :=
  ∀ k : TValue N, k.isDeadkey = false → t'.value mp k =
    if pos < arrayindex k ∧ arrayindex k ≤ i then t.value mp (.number (castNum (arrayindex k - 1))) else t.value mp k

theorem MovedUp.none {pos i : Int} (none : i ≤ pos) : MovedUp mp pos i t t := by
  intro k live
  rw [if_neg (by omega)]

omit [GafqNumber N] in
theorem inInt_pred {pos i : Int} (inInt : InInt i) (positive : 1 ≤ pos) (more : i > pos) : InInt (i - 1) :=
  ⟨by have := inInt.1; omega, by have := inInt.2; omega⟩

/-- One iteration copies an element, and the others move those below it. -/
theorem MovedUp.step {pos i : Int} {t₁ : Table N} (positive : 1 ≤ pos) (more : i > pos) (inInt : InInt i)
    (stored : Deposits mp t (.number (castNum i)) (rawgeti mp t (i - 1)) t₁) (movedUp : MovedUp mp pos (i - 1) t₁ t') :
    MovedUp mp pos i t t' := by
  have value (k : TValue N) (live : k.isDeadkey = false) := @Deposits.index _ _ mp t t₁ k _ i stored (by omega) inInt live
  intro k live
  rw [movedUp k live]
  have inIntK := arrayindex_inInt k
  by_cases here : arrayindex k = i
  · rw [if_neg (by omega), if_pos (by omega), value k live, if_pos here, rawgeti_eq (inInt_pred inInt positive more), here]
  · by_cases between : pos < arrayindex k ∧ arrayindex k ≤ i - 1
    · have previous : InInt (arrayindex k - 1) := ⟨by omega, by have := inIntK.2; omega⟩
      rw [if_pos between, if_pos (by omega), value _ rfl, arrayindex_castNum previous, if_neg (by omega)]
    · rw [if_neg between, if_neg (by omega), value k live, if_neg here]

omit [GafqNumber N] in
theorem raw_ok {α : Type} {x : TableM N α} {a : α} (ran : x t = .ok a t') : raw x t = .ok a t' := by
  rw [raw, ran]

omit [GafqNumber N] in
theorem raw_error {α : Type} {x : TableM N α} {e : TableError} (ran : x t = .error e t') : raw x t = .error (.table e) t' := by
  rw [raw, ran]

omit [GafqNumber N] in
theorem bind_ok {α β : Type} {x : TabM N α} {f : α → TabM N β} {a : α} (ran : x t = .ok a t') : (x >>= f) t = f a t' := by
  simp only [bind, EStateM.bind, ran]

omit [GafqNumber N] in
theorem bind_error {α β : Type} {x : TabM N α} {f : α → TabM N β} {e : TabError} (ran : x t = .error e t') :
    (x >>= f) t = .error e t' := by
  simp only [bind, EStateM.bind, ran]

theorem auxGetn_ok {fuel : Nat} {r : Int} (found : t.getn mp fuel = some r) : auxGetn mp fuel t = .ok r t := by
  rw [auxGetn, found]

/-- What remains the same outside of a range of positive indices. -/
def SameBeyond (mp : MainPosition N) (t : Table N) (e : Nat) (t' : Table N) : Prop :=
  ∀ k : TValue N, k.isDeadkey = false → ¬ (1 ≤ arrayindex k ∧ arrayindex k ≤ e) → t'.value mp k = t.value mp k

/-- The contents that a sequence has after an insertion and a removal at the same position. -/
theorem restored {t'' : Table N} {pos : Nat} (holds : Holds mp t l) (positive : 1 ≤ pos) (inside : pos ≤ l.length + 1)
    (same : SameBeyond mp t (l.length + 1) t') (holds'' : Holds mp t'' ((l.insertIdx (pos - 1) v).eraseIdx (pos - 1)))
    (same'' : SameBeyond mp t' (l.insertIdx (pos - 1) v).length t'') (live : k.isDeadkey = false) : t''.value mp k = t.value mp k := by
  have original : (l.insertIdx (pos - 1) v).eraseIdx (pos - 1) = l := List.eraseIdx_insertIdx_self v
  have length : (l.insertIdx (pos - 1) v).length = l.length + 1 := List.length_insertIdx_of_le_length (by omega) v
  rw [original] at holds''
  rw [length] at same''
  by_cases index : 1 ≤ arrayindex k
  · rw [holds''.value index, holds.value index]
  · rw [same'' k live (by omega), same k live (by omega)]

end TabLib

open TabLib Table

end Gafq
