import Gafq.Mutator
import Gafq.Verified.TableResize

/-! # What a table refers to after an insertion

An insertion may move the entries of a table to other nodes, and it may fail half way; in any case
the table refers to nothing but what it referred to before, the new key and the new value.  This
holds for tables in any state, well formed or not.
-/

namespace Gafq.GC

open Base

variable {N : Type}

/-- All references of a table, those of empty entries included. -/
def TableObject.Holds (x : TableObject N) (r : GCRef) : Prop :=
  x.Refers r ∨ ∃ i < x.h.sizenode, gcvalue (x.h.node i).key = some r

/-- The object that the value is, if it is one, satisfies the condition. -/
def Each (P : GCRef → Prop) (v : TValue N) : Prop := ∀ r, gcvalue v = some r → P r

/-- The array part up to `n` and the values of the nodes satisfy `value`, the keys `stale`, and the
keys that have a value `good`. -/
structure Contents (stale good value : GCRef → Prop) (n : Nat) (t : Gafq.Table N) : Prop where
  size : t.sizearray ≤ n
  array : ∀ i < n, Each value (t.array i)
  key : ∀ i < t.sizenode, Each stale (t.node i).key
  val : ∀ i < t.sizenode, Each value (t.node i).val
  used : ∀ i < t.sizenode, (t.node i).val ≠ .nil → Each good (t.node i).key

/-- A value may be stored in the slot. -/
def SlotGood (good : GCRef → Prop) (slot : Slot) (t : Gafq.Table N) : Prop := ∀ i, slot = .node i → Each good (t.node i).key

/-- Both ways in which an insertion can end. -/
def Ends {α : Type} (ok : α → Gafq.Table N → Prop) (error : Gafq.Table N → Prop) :
    EStateM.Result TableError (Gafq.Table N) α → Prop
  | .ok a t => ok a t
  | .error _ t => error t

theorem Ends.bind {α β : Type} {ok : α → Gafq.Table N → Prop} {error : Gafq.Table N → Prop}
    {ok' : β → Gafq.Table N → Prop} {x : TableM N α} {f : α → TableM N β} {t : Gafq.Table N}
    (first : Ends ok error (x t)) (rest : ∀ a t, ok a t → Ends ok' error (f a t)) : Ends ok' error ((x >>= f) t) := by
  cases ran : x t with
  | ok a t' =>
    rw [Table.bind_of_ok ran]
    rw [ran] at first
    exact rest a t' first
  | error e t' =>
    rw [Table.bind_of_error ran]
    rw [ran] at first
    exact first

theorem Ends.mono {α : Type} {ok ok' : α → Gafq.Table N → Prop} {error error' : Gafq.Table N → Prop}
    {result : EStateM.Result TableError (Gafq.Table N) α} (ends : Ends ok error result)
    (onOk : ∀ a t, ok a t → ok' a t) (onError : ∀ t, error t → error' t) : Ends ok' error' result := by
  cases result with
  | ok a t => exact onOk a t ends
  | error e t => exact onError t ends

@[simp] theorem each_nil (P : GCRef → Prop) : Each P (.nil : TValue N) := nofun

theorem Each.mono {P Q : GCRef → Prop} {v : TValue N} (each : Each P v) (weaker : ∀ {r}, P r → Q r) : Each Q v :=
  fun r isRef => weaker (each r isRef)

namespace Contents

variable {stale stale' good good' value : GCRef → Prop} {n : Nat} {t : Gafq.Table N}

theorem mono (contents : Contents stale good value n t) (toStale : ∀ {r}, stale r → stale' r)
    (toGood : ∀ {r}, good r → good' r) : Contents stale' good' value n t where
  size := contents.size
  array := contents.array
  key i inside := (contents.key i inside).mono toStale
  val := contents.val
  used i inside isUsed := (contents.used i inside isUsed).mono toGood

theorem monoValue {value' : GCRef → Prop} (contents : Contents stale good value n t)
    (toValue : ∀ {r}, value r → value' r) : Contents stale good value' n t where
  size := contents.size
  array i inside := (contents.array i inside).mono toValue
  key := contents.key
  val i inside := (contents.val i inside).mono toValue
  used := contents.used

/-- Fields that hold no references. -/
theorem setFields (contents : Contents stale good value n t) (lastfree : Int) (flags : UInt8) :
    Contents stale good value n { t with lastfree, flags } :=
  ⟨contents.size, contents.array, contents.key, contents.val, contents.used⟩

theorem write (contents : Contents stale good value n t) {slot : Slot} {v : TValue N} (each : Each value v)
    (slotGood : SlotGood good slot t) : Contents stale good value n (t.write slot v) := by
  cases slot with
  | array i =>
    refine ⟨contents.size, fun j inside => ?_, contents.key, contents.val, contents.used⟩
    simp only [Table.write, Function.update_apply]
    split
    · exact each
    · exact contents.array j inside
  | node i =>
    refine ⟨contents.size, contents.array, fun j inside => ?_, fun j inside => ?_, fun j inside => ?_⟩
    · simp only [Table.write, Function.update_apply]
      split
      · next same => exact same ▸ contents.key j inside
      · exact contents.key j inside
    · simp only [Table.write, Function.update_apply]
      split
      · exact each
      · exact contents.val j inside
    · simp only [Table.write, Function.update_apply]
      split
      · exact fun _ => slotGood i rfl
      · exact contents.used j inside
  | nilobject => exact contents

/-- A value may be stored in any slot if all keys that are there may have one. -/
theorem overwrite (contents : Contents stale good value n t) (slot : Slot) {v : TValue N} (each : Each value v)
    (toGood : ∀ {r}, stale r → good r) : Contents stale good value n (t.write slot v) := by
  cases slot with
  | array i =>
    refine ⟨contents.size, fun j inside => ?_, contents.key, contents.val, contents.used⟩
    simp only [Table.write, Function.update_apply]
    split
    · exact each
    · exact contents.array j inside
  | node i =>
    have key : ∀ j, ((t.write (.node i) v).node j).key = (t.node j).key := by
      intro j
      simp only [Table.write, Function.update_apply]
      split
      · next same => rw [same]
      · rfl
    refine ⟨contents.size, contents.array, fun j inside => ?_, fun j inside => ?_, fun j inside _ => ?_⟩
    · rw [key]
      exact contents.key j inside
    · simp only [Table.write, Function.update_apply]
      split
      · exact each
      · exact contents.val j inside
    · rw [key]
      exact (contents.key j inside).mono toGood
  | nilobject => exact contents

theorem setKey (contents : Contents stale good value n t) {i : Nat} {key : TValue N} (each : Each good key)
    (toStale : ∀ {r}, good r → stale r) : Contents stale good value n (t.setKey i key) := by
  refine ⟨contents.size, contents.array, fun j inside => ?_, fun j inside => ?_, fun j inside => ?_⟩ <;>
    simp only [Table.setKey, Function.update_apply] <;> split
  · exact each.mono toStale
  · exact contents.key j inside
  · next same => exact same ▸ contents.val j inside
  · exact contents.val j inside
  · exact fun _ => each
  · exact contents.used j inside

/-- Nodes are copied and emptied; what they point to as `next` does not matter. -/
theorem ofNodes (contents : Contents stale good value n t) {node : Nat → Node N}
    (same : ∀ j < t.sizenode, ∃ i < t.sizenode, (node j).key = (t.node i).key ∧
      ((node j).val = (t.node i).val ∨ (node j).val = .nil)) :
    Contents stale good value n { t with node } := by
  refine ⟨contents.size, contents.array, fun j inside => ?_, fun j inside => ?_, fun j inside => ?_⟩
  · obtain ⟨i, inside', key, -⟩ := same j inside
    simp only [key]
    exact contents.key i inside'
  · obtain ⟨i, inside', -, val | val⟩ := same j inside
    · simp only [val]
      exact contents.val i inside'
    · simp only [val, each_nil]
  · obtain ⟨i, inside', key, val | val⟩ := same j inside
    · simp only [key, val]
      exact contents.used i inside'
    · simp only [val, ne_eq, not_true_eq_false, false_implies]

theorem chainNode (contents : Contents stale good value n t) (m i : Nat) : Contents stale good value n (t.chainNode m i) := by
  refine contents.ofNodes fun j inside => ⟨j, inside, ?_⟩
  simp only [Function.update_apply]
  split <;> split <;> simp_all

theorem moveNode (contents : Contents stale good value n t) {prev m i : Nat} (inside : m < t.sizenode) :
    Contents stale good value n (t.moveNode prev m i) := by
  have chained : Contents stale good value n
      { t with node := Function.update t.node prev { t.node prev with next := some i } } := by
    refine contents.ofNodes fun j inside => ⟨j, inside, ?_⟩
    simp only [Function.update_apply]
    split <;> simp_all
  refine chained.ofNodes fun j inside' => ?_
  by_cases isM : j = m
  · refine ⟨m, inside, ?_⟩
    subst isM
    by_cases isI : j = i
    · subst isI
      simp
    · simp [isI]
  · by_cases isI : j = i
    · refine ⟨m, inside, ?_⟩
      subst isI
      simp [isM]
    · refine ⟨j, inside', ?_⟩
      simp [isM, isI]

end Contents

/-! ## Searches -/

section Insertions

variable [GafqNumber N] {mp : MainPosition N} {stale stale' good good' value : GCRef → Prop} {n : Nat} {t : Gafq.Table N}
  {key : TValue N}

theorem gcvalue_of_rawequal {a b : TValue N} (equal : rawequalObj a b = true) : gcvalue a = gcvalue b := by
  cases a <;> cases b <;> simp_all [rawequalObj, gcvalue]

omit [GafqNumber N] in
theorem walk_test {next : Nat → Option Nat} {test : Nat → Bool} {fuel i j : Nat}
    (found : walk next test fuel i = some j) : test j = true := by
  induction fuel generalizing i with
  | zero => cases found
  | succ fuel inductionHypothesis =>
    unfold walk at found
    split at found
    · next passes =>
      cases found
      exact passes
    · split at found
      · cases found
      · exact inductionHypothesis found

omit [GafqNumber N] in
theorem search_good {test : TValue N → Bool} {i : Nat} (each : ∀ k, test k = true → Each good k) :
    SlotGood good (t.search test i) t := by
  intro j isNode
  unfold Table.search at isNode
  split at isNode
  · next found =>
    cases isNode
    exact each _ (walk_test found)
  · cases isNode

theorem getnum_good (k : Int) : SlotGood good (t.getnum mp k) t := by
  unfold Table.getnum
  split
  · exact fun i isNode => by cases isNode
  · refine search_good fun k' isNumber => ?_
    cases k' with
    | number m => nofun
    | nil | boolean | lightuserdata | string | object | deadkey => cases isNumber

theorem getSlot_good (each : Each good key) : SlotGood good (t.getSlot mp key) t := by
  have general : SlotGood good (t.search (rawequalObj · key) (mp.pos t.lsizenode key)) t :=
    search_good fun k equal r isRef => each r (gcvalue_of_rawequal equal ▸ isRef)
  cases key with
  | nil => exact fun i isNode => by cases isNode
  | string a =>
    refine search_good fun k isString r isRef => ?_
    cases k with
    | string b =>
      have same : b = a := by simpa [TValue.isString] using isString
      exact each r (same ▸ isRef)
    | nil | boolean | lightuserdata | number | object | deadkey => cases isString
  | number m =>
    unfold Table.getSlot
    simp only
    split
    · exact getnum_good _
    · exact general
  | boolean | lightuserdata | object | deadkey => exact general

/-! ## Insertions -/

theorem insertAt_ends (contents : Contents stale good value n t) (toStale : ∀ {r}, stale r → stale' r)
    (toGood : ∀ {r}, good r → good' r) (goodStale : ∀ {r}, good' r → stale' r) (each : Each good' key) (i : Nat) :
    Ends (fun slot t => Contents stale' good' value n t ∧ SlotGood good' slot t) (Contents stale good value n)
      (Table.insertAt mp i key t) := by
  have wider := contents.mono toStale toGood
  unfold Table.insertAt
  simp only
  split
  · split
    · exact contents
    · refine ⟨(wider.moveNode (mp.pos_lt _ _)).setKey each goodStale, fun j isNode => ?_⟩
      cases isNode
      simp only [Table.setKey, Function.update_self]
      exact each
  · refine ⟨(wider.chainNode _ _).setKey each goodStale, fun j isNode => ?_⟩
    cases isNode
    simp only [Table.setKey, Function.update_self]
    exact each

theorem newkeyWith_ends {grow : TValue N → TableM N Slot} {ok : Slot → Gafq.Table N → Prop} {error : Gafq.Table N → Prop}
    (contents : Contents stale good value n t) (toStale : ∀ {r}, stale r → stale' r)
    (toGood : ∀ {r}, good r → good' r) (goodStale : ∀ {r}, good' r → stale' r) (each : Each good' key)
    (grows : ∀ t, Contents stale good value n t → Ends ok error (grow key t))
    (onOk : ∀ slot t, Contents stale' good' value n t → SlotGood good' slot t → ok slot t)
    (onError : ∀ t, Contents stale good value n t → error t) : Ends ok error (Table.newkeyWith mp grow key t) := by
  unfold Table.newkeyWith
  simp only
  split
  · split
    · exact grows _ (contents.setFields _ _)
    · exact (insertAt_ends (contents.setFields _ _) toStale toGood goodStale each _).mono
        (fun slot t both => onOk slot t both.1 both.2) onError
  · refine onOk _ _ ((contents.mono toStale toGood).setKey each goodStale) fun j isNode => ?_
    cases isNode
    simp only [Table.setKey, Function.update_self]
    exact each

theorem setWith_ends {grow : TValue N → TableM N Slot} {ok : Slot → Gafq.Table N → Prop} {error : Gafq.Table N → Prop}
    (contents : Contents stale good value n t) (toStale : ∀ {r}, stale r → stale' r)
    (toGood : ∀ {r}, good r → good' r) (goodStale : ∀ {r}, good' r → stale' r) (each : Each good' key)
    (grows : ∀ t, Contents stale good value n t → Ends ok error (grow key t))
    (onOk : ∀ slot t, Contents stale' good' value n t → SlotGood good' slot t → ok slot t)
    (onError : ∀ t, Contents stale good value n t → error t) : Ends ok error (Table.setWith mp grow key t) := by
  have cleared := contents.setFields t.lastfree 0
  unfold Table.setWith
  simp only
  split
  · exact onOk _ _ (cleared.mono toStale toGood) (getSlot_good (t := t) each)
  · split
    · exact onError _ cleared
    · split
      · exact onError _ cleared
      · exact newkeyWith_ends cleared toStale toGood goodStale each grows onOk onError

theorem setnumWith_ends {grow : TValue N → TableM N Slot} {ok : Slot → Gafq.Table N → Prop} {error : Gafq.Table N → Prop}
    (contents : Contents stale good value n t) (goodStale : ∀ {r}, good r → stale r) (k : Int)
    (grows : ∀ t, Contents stale good value n t → Ends ok error (grow (.number (castNum k)) t))
    (onOk : ∀ slot t, Contents stale good value n t → SlotGood good slot t → ok slot t)
    (onError : ∀ t, Contents stale good value n t → error t) : Ends ok error (Table.setnumWith mp grow k t) := by
  unfold Table.setnumWith
  simp only
  split
  · exact onOk _ _ contents (getnum_good k)
  · exact newkeyWith_ends contents id id goodStale (fun r isRef => by cases isRef) grows onOk onError

/-! ## Resizing -/

omit [GafqNumber N] in
theorem storeAt_ends {insertion : TableM N Slot} {v : TValue N} (each : Each value v)
    (ends : Ends (fun slot t => Contents stale good value n t ∧ SlotGood good slot t) (Contents stale good value n)
      (insertion t)) :
    Ends (fun _ => Contents stale good value n) (Contents stale good value n) (Table.storeAt insertion v t) :=
  ends.bind fun _ _ both => both.1.write each both.2

section Reinsertion

variable {grow : TValue N → TableM N Slot} (goodStale : ∀ {r}, good r → stale r)
  (grows : ∀ key t, Contents stale good value n t →
    Ends (fun slot t => Contents stale good value n t ∧ SlotGood good slot t) (Contents stale good value n) (grow key t))

include goodStale grows

theorem reinsertArray_ends (count : Nat) : ∀ {i : Nat} {t : Gafq.Table N}, i + count ≤ n → Contents stale good value n t →
    Ends (fun _ => Contents stale good value n) (Contents stale good value n) (Table.reinsertArray mp grow i count t) := by
  induction count with
  | zero => exact fun _ contents => contents
  | succ count inductionHypothesis =>
    intro i t inside contents
    have step : Table.reinsertArray mp grow i (count + 1) t =
        (if !(t.array i).isNil then
          Table.storeAt (Table.setnumWith mp grow ((i : Int) + 1)) (t.array i) >>= fun _ =>
            Table.reinsertArray mp grow (i + 1) count
        else Table.reinsertArray mp grow (i + 1) count) t := rfl
    rw [step]
    split
    · refine (storeAt_ends (contents.array i (by omega)) ?_).bind fun _ t' after => inductionHypothesis (by omega) after
      exact setnumWith_ends contents goodStale _ (grows _) (fun _ _ after slotGood => ⟨after, slotGood⟩) fun _ after => after
    · exact inductionHypothesis (by omega) contents

theorem reinsertNodes_ends {nold : Nat → Node N} (count : Nat)
    (entries : ∀ j < count, (nold j).val ≠ .nil → Each good (nold j).key ∧ Each value (nold j).val) :
    ∀ {t : Gafq.Table N}, Contents stale good value n t →
    Ends (fun _ => Contents stale good value n) (Contents stale good value n) (Table.reinsertNodes mp grow nold count t) := by
  induction count with
  | zero => exact fun contents => contents
  | succ count inductionHypothesis =>
    intro t contents
    have step : Table.reinsertNodes mp grow nold (count + 1) t =
        (if !(nold count).val.isNil then
          Table.storeAt (Table.setWith mp grow (nold count).key) (nold count).val >>= fun _ =>
            Table.reinsertNodes mp grow nold count
        else Table.reinsertNodes mp grow nold count) t := rfl
    have rest := @inductionHypothesis fun j inside => entries j (by omega)
    rw [step]
    split
    · next used =>
      obtain ⟨eachKey, eachValue⟩ := entries count (by omega) (by simpa using used)
      refine (storeAt_ends eachValue ?_).bind fun _ t' after => rest after
      exact setWith_ends contents id id goodStale eachKey (grows _) (fun _ _ after slotGood => ⟨after, slotGood⟩)
        fun _ after => after
    · exact rest contents

end Reinsertion

omit [GafqNumber N] in
theorem growArray_ends (contents : Contents stale good value n t) (ok : Bool) (nasize : Nat) :
    Ends (fun _ => Contents stale good value (max n nasize)) (Contents stale good value n) (Table.growArray ok nasize t) := by
  unfold Table.growArray Table.setarrayvector
  split
  · next grows =>
    split
    · refine ⟨Nat.le_max_right _ _, fun i inside => ?_, contents.key, contents.val, contents.used⟩
      simp only
      split
      · next below => exact contents.array i (Nat.lt_of_lt_of_le below contents.size)
      · exact each_nil _
    · exact contents
  · next same =>
    have enough : max n nasize = n := by
      have := contents.size
      omega
    rw [enough]
    exact contents

omit [GafqNumber N] in
theorem setnodevector_ends (contents : Contents stale good value n t) (ok : Bool) (size : Nat) :
    Ends (fun _ => Contents stale good value n) (Contents stale good value n) (Table.setnodevector ok size t) := by
  unfold Table.setnodevector
  split
  · exact ⟨contents.size, contents.array, fun _ _ => each_nil _, fun _ _ => each_nil _, fun _ _ used => absurd rfl used⟩
  · simp only
    split
    · exact contents
    · split
      · exact ⟨contents.size, contents.array, fun _ _ => each_nil _, fun _ _ => each_nil _, fun _ _ used => absurd rfl used⟩
      · exact contents

/-- The table refers to nothing else. -/
def Kept (stale good value : GCRef → Prop) (t : Gafq.Table N) : Prop := ∃ n, Contents stale good value n t

theorem resizeWith_ends {grow : TValue N → TableM N Slot} (contents : Contents stale good value n t)
    (goodStale : ∀ {r}, good r → stale r) (mem : Memory) (nasize nhsize : Nat)
    (grows : ∀ {n} key t, Contents stale good value n t →
      Ends (fun slot t => Contents stale good value n t ∧ SlotGood good slot t) (Contents stale good value n) (grow key t)) :
    Ends (fun _ => Kept stale good value) (Kept stale good value) (Table.resizeWith mp grow mem nasize nhsize t) := by
  have step : Table.resizeWith mp grow mem nasize nhsize t =
      (Table.growArray mem.array nasize >>= fun _ => Table.setnodevector mem.nodes nhsize >>= fun _ =>
        Table.shrinkArray mp grow mem.shrink t.sizearray nasize >>= fun _ =>
          Table.reinsertNodes mp grow t.node t.sizenode) t := rfl
  rw [step]
  refine ((growArray_ends contents mem.array nasize).mono (fun _ _ after => after) fun _ after => ⟨n, after⟩).bind
    fun _ t₁ contents₁ => ?_
  refine ((setnodevector_ends contents₁ mem.nodes nhsize).mono (fun _ _ after => after) fun _ after => ⟨_, after⟩).bind
    fun _ t₂ contents₂ => ?_
  have shrunk : Ends (fun _ => Contents stale good value (max n nasize)) (Kept stale good value)
      (Table.shrinkArray mp grow mem.shrink t.sizearray nasize t₂) := by
    unfold Table.shrinkArray
    split
    · next shrinks =>
      have smaller : Contents stale good value (max n nasize) { t₂ with sizearray := nasize } :=
        ⟨Nat.le_max_right _ _, contents₂.array, contents₂.key, contents₂.val, contents₂.used⟩
      have fits : nasize + (t.sizearray - nasize) ≤ max n nasize := by
        have := contents.size
        omega
      refine Ends.bind ((reinsertArray_ends goodStale grows _ fits smaller).mono (fun _ _ after => after) fun _ after =>
        ⟨_, after⟩) fun _ t after => ?_
      unfold Table.shrinkVector
      split
      · exact ⟨_, after⟩
      · exact after
    · exact contents₂
  refine shrunk.bind fun _ t₃ contents₃ => ?_
  exact (reinsertNodes_ends goodStale grows t.sizenode (fun j inside used =>
    ⟨contents.used j inside used, contents.val j inside⟩) contents₃).mono (fun _ _ after => ⟨_, after⟩) fun _ after => ⟨_, after⟩

theorem rehashAndSet_ends (contents : Contents stale good value n t) (toStale : ∀ {r}, stale r → stale' r)
    (toGood : ∀ {r}, good r → good' r) (goodStale : ∀ {r}, good r → stale r) (goodStale' : ∀ {r}, good' r → stale' r)
    (each : Each good' key) (mem : Memory) :
    Ends (fun slot t => Kept stale' good' value t ∧ SlotGood good' slot t) (Kept stale good value)
      (Table.rehashAndSet mp mem 1 key t) := by
  have step : Table.rehashAndSet mp mem 1 key t =
      (Table.resizeWith mp (Table.rehashAndSet mp mem 0) mem (t.rehashSizes key).1 (t.rehashSizes key).2 >>= fun _ =>
        Table.setWith mp (Table.rehashAndSet mp mem 0) key) t := rfl
  rw [step]
  -- inside a rehash nothing grows
  have stuck : ∀ {n} key t, Contents stale good value n t →
      Ends (fun slot t => Contents stale good value n t ∧ SlotGood good slot t) (Contents stale good value n)
        (Table.rehashAndSet mp mem 0 key t) := fun _ _ after => after
  refine (resizeWith_ends contents goodStale mem _ _ stuck).bind fun _ t' ⟨n', contents'⟩ => ?_
  exact setWith_ends contents' toStale toGood goodStale' each (fun _ after => ⟨_, after⟩)
    (fun _ _ after slotGood => ⟨⟨_, after⟩, slotGood⟩) fun _ after => ⟨_, after⟩

theorem setSlot_ends (contents : Contents stale good value n t) (toStale : ∀ {r}, stale r → stale' r)
    (toGood : ∀ {r}, good r → good' r) (goodStale : ∀ {r}, good r → stale r) (goodStale' : ∀ {r}, good' r → stale' r)
    (each : Each good' key) (mem : Memory) :
    Ends (fun slot t => Kept stale' good' value t ∧ SlotGood good' slot t) (Kept stale good value)
      (Table.setSlot mp mem key t) :=
  setWith_ends contents toStale toGood goodStale' each
    (fun _ after => rehashAndSet_ends after toStale toGood goodStale goodStale' each mem)
    (fun _ _ after slotGood => ⟨⟨_, after⟩, slotGood⟩) fun _ after => ⟨_, after⟩

theorem setnum_ends (contents : Contents stale good value n t) (goodStale : ∀ {r}, good r → stale r) (mem : Memory)
    (k : Int) :
    Ends (fun slot t => Kept stale good value t ∧ SlotGood good slot t) (Kept stale good value)
      (Table.setnum mp mem k t) :=
  setnumWith_ends contents goodStale k
    (fun _ after => rehashAndSet_ends after id id goodStale goodStale (fun r isRef => by cases isRef) mem)
    (fun _ _ after slotGood => ⟨⟨_, after⟩, slotGood⟩) fun _ after => ⟨_, after⟩

/-- A store after an insertion; the keys that are there already need not be good if the slot is new. -/
def Stored (stale' good' value : GCRef → Prop) (slot : Slot) (t : Gafq.Table N) : Prop :=
  Kept stale' good' value t ∧
  ∀ {value' : GCRef → Prop} {v : TValue N}, (∀ {r}, value r → value' r) → Each value' v →
    Kept stale' good' value' (t.write slot v)

omit [GafqNumber N] in
theorem stored_of_slotGood {slot : Slot} (kept : Kept stale good value t) (slotGood : SlotGood good slot t) :
    Stored stale good value slot t :=
  ⟨kept, fun toValue each => kept.imp fun _ contents => (contents.monoValue toValue).write each slotGood⟩

theorem setSlot_stored (contents : Contents stale good value n t) (toStale : ∀ {r}, stale r → stale' r)
    (toGood : ∀ {r}, good r → good' r) (goodStale : ∀ {r}, good r → stale r) (goodStale' : ∀ {r}, good' r → stale' r)
    (each : Each good' key ∨ t.getSlot mp key ≠ .nilobject ∧ ∀ {r}, stale r → good' r) (mem : Memory) :
    Ends (Stored stale' good' value) (Kept stale good value) (Table.setSlot mp mem key t) := by
  obtain each | ⟨found, staleGood⟩ := each
  · exact (setSlot_ends contents toStale toGood goodStale goodStale' each mem).mono
      (fun _ _ both => stored_of_slotGood both.1 both.2) fun _ after => after
  · have result : Table.setSlot mp mem key t = .ok (t.getSlot mp key) { t with flags := 0 } := if_pos found
    rw [result]
    have cleared := contents.setFields t.lastfree 0
    refine ⟨⟨n, cleared.mono toStale toGood⟩, fun toValue each => ⟨n, ?_⟩⟩
    have wider := cleared.monoValue toValue
    have all := (wider.mono id toGood).overwrite (t.getSlot mp key) each staleGood
    exact all.mono toStale id

theorem setnum_stored (contents : Contents stale good value n t) (goodStale : ∀ {r}, good r → stale r) (mem : Memory)
    (k : Int) : Ends (Stored stale good value) (Kept stale good value) (Table.setnum mp mem k t) :=
  (setnum_ends contents goodStale mem k).mono (fun _ _ both => stored_of_slotGood both.1 both.2) fun _ after => after

end Insertions

/-- A new table refers to nothing. -/
theorem new_contents (mem : Memory) (narray nhash : Nat) :
    Ends (fun _ => Kept (fun _ => False) (fun _ => False) fun _ => False) (Kept (fun _ => False) (fun _ => False) fun _ => False)
      (Table.new (N := N) mem narray nhash) := by
  have empty : Contents (fun _ => False) (fun _ => False) (fun _ => False) 0 (Table.empty (N := N)) :=
    ⟨le_refl _, fun _ _ => each_nil _, fun _ _ => each_nil _, fun _ _ => each_nil _, fun _ _ used => absurd rfl used⟩
  have array : Ends (fun _ => Contents (fun _ => False) (fun _ => False) (fun _ => False) narray)
      (Kept (fun _ => False) (fun _ => False) fun _ => False) (Table.setarrayvector mem.array narray (Table.empty (N := N))) := by
    unfold Table.setarrayvector
    split
    · refine ⟨le_refl _, fun i _ => ?_, empty.key, empty.val, empty.used⟩
      simp only
      split <;> exact each_nil _
    · exact ⟨0, empty⟩
  exact array.bind fun _ t after => (setnodevector_ends after mem.nodes nhash).mono (fun _ _ after => ⟨_, after⟩) fun _ after => ⟨_, after⟩

end Gafq.GC
