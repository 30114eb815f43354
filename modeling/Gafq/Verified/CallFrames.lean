import Gafq.Verified.CallRecords

/-! # Frames that hold activation records

Where the registers and the extra arguments of a function are on the stack, and what a call and a return do
to them.
-/

namespace Gafq

variable {V : Type} {env : CallEnv V}

/-! ## Values that are known -/

/-- The values that are known are the actual ones. -/
structure ValuesAgree (known : List (Option V)) (actual : List V) : Prop where
  length : known.length = actual.length
  value : ∀ (i : Nat) (v : V), known[i]? = some (some v) → actual[i]? = some v

namespace ValuesAgree

variable {known known' : List (Option V)} {actual actual' : List V}

theorem map_some (vs : List V) : ValuesAgree (vs.map some) vs where
  length := by simp
  value i v at_i := by simpa using at_i

theorem nil : ValuesAgree ([] : List (Option V)) [] := ⟨rfl, by simp⟩

theorem append (first : ValuesAgree known actual) (second : ValuesAgree known' actual') : ValuesAgree (known ++ known') (actual ++ actual') where
  length := by simp [first.length, second.length]
  value i v at_i := by
    by_cases inside : i < known.length
    · rw [List.getElem?_append_left inside] at at_i
      rw [List.getElem?_append_left (by have := first.length; omega)]
      exact first.value i v at_i
    · rw [List.getElem?_append_right (by omega)] at at_i
      rw [List.getElem?_append_right (by have := first.length; omega), ← first.length]
      exact second.value _ v at_i

theorem drop (agrees : ValuesAgree known actual) (n : Nat) : ValuesAgree (known.drop n) (actual.drop n) where
  length := by simp [agrees.length]
  value i v at_i := by
    rw [List.getElem?_drop] at at_i ⊢
    exact agrees.value _ v at_i

theorem take (agrees : ValuesAgree known actual) (n : Nat) : ValuesAgree (known.take n) (actual.take n) where
  length := by simp [agrees.length]
  value i v at_i := by
    rw [List.getElem?_take] at at_i ⊢
    split at at_i
    · next inside => rw [if_pos inside, agrees.value _ v at_i]
    · cases at_i

theorem replicate (n : Nat) (v : V) : ValuesAgree (List.replicate n (some v)) (List.replicate n v) := by
  simpa using map_some (List.replicate n v)

theorem adjust (agrees : ValuesAgree known actual) (nil : V) (wanted : Int) :
    ValuesAgree (Thread.adjust (some nil) wanted known) (Thread.adjust nil wanted actual) := by
  unfold Thread.adjust
  split
  · exact agrees
  · rw [agrees.length]
    exact (agrees.take _).append (.replicate _ _)

theorem tail {k : Option V} {v : V} (agrees : ValuesAgree (k :: known) (v :: actual)) : ValuesAgree known actual :=
  ⟨Nat.succ.inj agrees.length, fun i w at_i => agrees.value (i + 1) w at_i⟩

/-- When all values are known. -/
theorem mapM_id {vs : List V} (agrees : ValuesAgree known actual) (all : known.mapM id = some vs) : vs = actual := by
  induction known generalizing actual vs with
  | nil =>
    have empty := agrees.length
    cases all
    cases actual with
    | nil => rfl
    | cons => cases empty
  | cons k known inductionHypothesis =>
    cases actual with
    | nil => exact absurd agrees.length (by simp)
    | cons v actual =>
      simp only [List.mapM_cons, id, Option.bind_eq_bind, Option.pure_def, Option.bind_eq_some_iff, Option.some.injEq] at all
      obtain ⟨w, isKnown, ws, rest, rfl⟩ := all
      have first := agrees.value 0 w (by simp [isKnown])
      rw [inductionHypothesis agrees.tail rest]
      simpa using first.symm

end ValuesAgree

/-- The values of registers agree with the slots where the registers are. -/
theorem Record.values_agree {r : Record V} {th : Thread V} {base : Nat}
    (regs : ∀ (i : Nat) (v : V), r.regs i = some v → th.slots (base + i) = v) (first n : Nat) :
    ValuesAgree (r.values first n) (th.values (base + first) n) where
  length := by simp [Record.values]
  value i v at_i := by
    rw [Thread.getElem?_values]
    simp only [Record.values, List.getElem?_map, Option.map_eq_some_iff] at at_i
    obtain ⟨j, member, known⟩ := at_i
    obtain ⟨below, rfl⟩ : i < n ∧ j = i := by
      rw [List.getElem?_eq_some_iff] at member
      obtain ⟨below, same⟩ := member
      simp only [List.length_range] at below
      exact ⟨below, by simpa using same.symm⟩
    rw [if_pos below, add_assoc, regs _ v known]

/-! ## Frames -/

/-- The frame `ci` holds the registers and the extra arguments of `r`, its registers below `bound`. -/
structure FrameOf (env : CallEnv V) (slots : Nat → V) (bound : Nat) (ci : CallInfo) (r : Record V) : Prop where
  current : env.function? (slots ci.func) = some (.gafq r.proto)
  top : ci.top = ci.base + r.proto.maxstacksize.toNat
  nresults : ci.nresults = r.nresults
  wanted : -1 ≤ r.nresults
  extra : ci.base - ci.func - r.proto.numparams.toNat - 1 = r.varargs.length
  room : ci.func + 1 + r.varargs.length ≤ ci.base
  varargs : ∀ (j : Nat) (v : V), r.varargs[j]? = some (some v) → slots (ci.base - r.varargs.length + j) = v
  regs : ∀ (i : Nat) (v : V), r.regs i = some v → ci.base + i < bound ∧ slots (ci.base + i) = v

namespace FrameOf

variable {slots slots' : Nat → V} {bound bound' : Nat} {ci : CallInfo} {r : Record V}

theorem congr (frame : FrameOf env slots bound ci r) (base : ci.base ≤ bound') (lower : bound ≤ bound')
    (same : ∀ i, i < bound' → slots' i = slots i) : FrameOf env slots' bound' ci r where
  current := by
    have room := frame.room
    rw [same _ (by omega)]
    exact frame.current
  top := frame.top
  nresults := frame.nresults
  wanted := frame.wanted
  extra := frame.extra
  room := frame.room
  varargs j v at_j := by
    have inside : j < r.varargs.length := (List.getElem?_eq_some_iff.1 at_j).1
    have room := frame.room
    rw [same _ (by omega)]
    exact frame.varargs j v at_j
  regs i v known := by
    obtain ⟨below, value⟩ := frame.regs i v known
    exact ⟨by omega, by rw [same _ (by omega), value]⟩

/-- Registers and what they are needed for change, the rest stays. -/
theorem withRegs (frame : FrameOf env slots bound ci r) {regs' : Nat → Option V} {limit resume register : Nat}
    (known : ∀ (i : Nat) (v : V), regs' i = some v → ci.base + i < bound' ∧ slots' (ci.base + i) = v)
    (same : ∀ i, i < ci.base → slots' i = slots i) :
    FrameOf env slots' bound' ci { r with regs := regs', limit, resume, register } where
  current := by
    have room := frame.room
    rw [same _ (by omega)]
    exact frame.current
  top := frame.top
  nresults := frame.nresults
  wanted := frame.wanted
  extra := frame.extra
  room := frame.room
  varargs j v at_j := by
    have inside : j < r.varargs.length := (List.getElem?_eq_some_iff.1 at_j).1
    have room := frame.room
    simp only
    rw [same _ (by omega)]
    exact frame.varargs j v at_j
  regs := known

end FrameOf

/-- The frames below `bound` hold the records of the callers, each of which waits for results from `bound` on. -/
inductive Callers (env : CallEnv V) (slots : Nat → V) (entry : Nat) (outer : List CallInfo) :
    Nat → List CallInfo → List (Record V) → Prop
  | entry : Callers env slots entry outer entry outer []
  | caller {ci : CallInfo} {cis : List CallInfo} {r : Record V} {rs : List (Record V)}
      (frame : FrameOf env slots (ci.base + r.register) ci r) (resume : ci.savedpc = r.resume)
      (callers : Callers env slots entry outer ci.func cis rs) :
    Callers env slots entry outer (ci.base + r.register) (ci :: cis) (r :: rs)

/-- A slot below the function of the frame may change. -/
theorem FrameOf.congr_above {slots slots' : Nat → V} {bound : Nat} {ci : CallInfo} {r : Record V} (frame : FrameOf env slots bound ci r)
    (same : ∀ i, ci.func ≤ i → slots' i = slots i) : FrameOf env slots' bound ci r where
  current := by rw [same _ le_rfl]; exact frame.current
  top := frame.top
  nresults := frame.nresults
  wanted := frame.wanted
  extra := frame.extra
  room := frame.room
  varargs j v at_j := by
    have room := frame.room
    rw [same _ (by omega)]
    exact frame.varargs j v at_j
  regs i v known := by
    obtain ⟨below, value⟩ := frame.regs i v known
    have room := frame.room
    exact ⟨below, by rw [same _ (by omega), value]⟩

theorem Callers.congr {slots slots' : Nat → V} {entry bound : Nat} {outer cis : List CallInfo} {rs : List (Record V)}
    (callers : Callers env slots entry outer bound cis rs) (same : ∀ i, i < bound → slots' i = slots i) :
    Callers env slots' entry outer bound cis rs := by
  induction callers with
  | entry => exact .entry
  | caller frame resume _ inductionHypothesis =>
    have room := frame.room
    refine .caller (frame.congr (Nat.le_add_right ..) le_rfl same) resume (inductionHypothesis fun i below => same i ?_)
    omega

theorem Callers.entry_le {slots : Nat → V} {entry bound : Nat} {outer cis : List CallInfo} {rs : List (Record V)}
    (callers : Callers env slots entry outer bound cis rs) : entry ≤ bound := by
  induction callers with
  | entry => exact le_rfl
  | caller frame _ _ inductionHypothesis =>
    have room := frame.room
    omega

theorem Callers.of_nil {slots : Nat → V} {entry bound : Nat} {outer cis : List CallInfo}
    (callers : Callers env slots entry outer bound cis []) : bound = entry ∧ cis = outer := by
  cases callers
  exact ⟨rfl, rfl⟩

theorem Callers.of_cons {slots : Nat → V} {entry bound : Nat} {outer cis : List CallInfo} {r : Record V} {rs : List (Record V)}
    (callers : Callers env slots entry outer bound cis (r :: rs)) :
    ∃ ci rest, cis = ci :: rest ∧ bound = ci.base + r.register ∧ FrameOf env slots bound ci r ∧ ci.savedpc = r.resume ∧
      Callers env slots entry outer ci.func rest rs := by
  cases callers with
  | caller frame resume callers => exact ⟨_, _, rfl, rfl, frame, resume, callers⟩

theorem Callers.congr_above {slots slots' : Nat → V} {entry bound : Nat} {outer cis : List CallInfo} {rs : List (Record V)}
    (callers : Callers env slots entry outer bound cis rs) (same : ∀ i, entry ≤ i → slots' i = slots i) :
    Callers env slots' entry outer bound cis rs := by
  induction callers with
  | entry => exact .entry
  | caller frame resume callers inductionHypothesis =>
    have entry_le := callers.entry_le
    exact .caller (frame.congr_above fun i above => same i (by omega)) resume inductionHypothesis

/-- The function that `gafqV_execute` was started for stands at `entry`. -/
theorem Callers.first_func {slots : Nat → V} {entry : Nat} {outer cis : List CallInfo} {rs : List (Record V)} {ci first : CallInfo}
    (callers : Callers env slots entry outer ci.func cis rs) (at_n : (ci :: cis)[rs.length]? = some first) : first.func = entry := by
  induction rs generalizing ci cis with
  | nil =>
    obtain ⟨atEntry, -⟩ := callers.of_nil
    rw [← Option.some.inj at_n]
    exact atEntry
  | cons r rs inductionHypothesis =>
    obtain ⟨ci', rest, rfl, -, -, -, callers⟩ := callers.of_cons
    exact inductionHypothesis callers at_n

/-- A register of a caller is assigned to. -/
theorem Callers.assign {slots : Nat → V} {entry r depth : Nat} {outer cis : List CallInfo} {rs : List (Record V)} {ci called target : CallInfo}
    (callers : Callers env slots entry outer ci.func cis rs) (inside : depth < rs.length) (at_called : (ci :: cis)[depth]? = some called)
    (at_target : (ci :: cis)[depth + 1]? = some target) (below : target.base + r < called.func) (v : V) :
    target.base + r < ci.func ∧ entry ≤ target.base + r ∧
      Callers env (Function.update slots (target.base + r) v) entry outer ci.func cis (rs.modify depth (·.assign r v)) := by
  induction depth generalizing ci cis rs with
  | zero =>
    obtain rfl : ci = called := Option.some.inj at_called
    cases rs with
    | nil => cases inside
    | cons record rs =>
      obtain ⟨ci', rest, rfl, bound, frame, resume, callers⟩ := callers.of_cons
      obtain rfl : ci' = target := Option.some.inj at_target
      have room := frame.room
      have entry_le := callers.entry_le
      refine ⟨below, by omega, ?_⟩
      have rest' := @Callers.congr V env slots (Function.update slots (ci'.base + r) v) entry ci'.func outer rest rs callers
        fun i low => Function.update_of_ne (by omega) ..
      have written : FrameOf env (Function.update slots (ci'.base + r) v) (ci'.base + record.register) ci' (record.assign r v) := by
        rw [Record.assign, if_pos (by omega)]
        refine frame.withRegs (fun i w known => ?_) fun i low => Function.update_of_ne (by omega) ..
        rw [Function.update_apply] at known ⊢
        by_cases here : i = r
        · subst here
          rw [if_pos rfl] at known
          exact ⟨by omega, by rw [if_pos rfl, Option.some.inj known]⟩
        · rw [if_neg here] at known
          obtain ⟨low, value⟩ := frame.regs i w known
          exact ⟨by omega, by rw [if_neg (by omega), value]⟩
      have same : (record.assign r v).register = record.register ∧ (record.assign r v).resume = record.resume := by
        unfold Record.assign
        split <;> exact ⟨rfl, rfl⟩
      rw [bound]
      have caller := @Callers.caller V env _ entry outer ci' rest (record.assign r v) rs (same.1.symm ▸ written)
        (resume.trans same.2.symm) rest'
      rwa [same.1] at caller
  | succ depth inductionHypothesis =>
    cases rs with
    | nil => cases inside
    | cons record rs =>
      obtain ⟨ci', rest, rfl, bound, frame, resume, callers⟩ := callers.of_cons
      obtain ⟨low, high, assigned⟩ := inductionHypothesis callers (Nat.lt_of_succ_lt_succ inside) at_called at_target
      have room := frame.room
      refine ⟨by omega, high, ?_⟩
      rw [bound, List.modify_succ_cons]
      refine .caller ?_ resume assigned
      rw [← bound]
      exact frame.congr_above fun i above => Function.update_of_ne (by omega) ..

/-- The thread holds the records; below `entry` its slots are `floor`. -/
structure Represents (env : CallEnv V) (entry : Nat) (floor : Nat → V) (outer : List CallInfo) (th : Thread V)
    (active : Record V) (callers : List (Record V)) : Prop where
  frames : ∃ ci cis, th.ci = ci :: cis ∧ th.base = ci.base ∧ th.top = ci.base + active.limit ∧
    FrameOf env th.slots th.top ci active ∧ Callers env th.slots entry outer ci.func cis callers
  floor : ∀ i, i < entry → th.slots i = floor i

/-! ## Entering a function -/

/-- What runs above a function writes above it, hooks and the collector, and gives its frame back. -/
structure CallEnv.Quiet (env : CallEnv V) : Prop where
  hooks : Thread.QuietHooks env
  collector : ∀ (th : Thread V) i v, StackEvent.store i v ∈ env.collector th → th.top ≤ i
  /-- a C function leaves its results above its base -/
  callC : ∀ f (th th' : Thread V) (n : Nat), env.callC f th = some (th', (n : Int)) → th.base + n ≤ th'.top ∧
    ∃ call, th'.ci = call :: th.ci.tail ∧ call.func = (th.ci.headD {}).func ∧ call.nresults = (th.ci.headD {}).nresults

namespace Thread

theorem pushNils_slots (th : Thread V) (n i : Nat) :
    (pushNils env th n).slots i = if th.top ≤ i ∧ i < th.top + n then env.nil else th.slots i := by
  induction n generalizing th with
  | zero => rw [if_neg (by omega)]; rfl
  | succ n inductionHypothesis =>
    rw [pushNils, inductionHypothesis]
    simp only [push, store, Function.update_apply]
    split <;> split <;> grind

/-- The fixed parameters move behind the arguments. -/
theorem moveFixed_spec (th : Thread V) (source n : Nat) (below : source + n ≤ th.top) :
    (moveFixed env th source n).top = th.top + n ∧
    ∀ i, (moveFixed env th source n).slots i =
      if source ≤ i ∧ i < source + n then env.nil
      else if th.top ≤ i ∧ i < th.top + n then th.slots (source + (i - th.top)) else th.slots i := by
  induction n generalizing th source with
  | zero => exact ⟨rfl, fun i => by rw [if_neg (by omega), if_neg (by omega)]; rfl⟩
  | succ n inductionHypothesis =>
    obtain ⟨top, slots⟩ := inductionHypothesis ((th.push (th.slots source)).store source env.nil) (source + 1)
      (by simp only [push, store]; omega)
    refine ⟨?_, fun i => ?_⟩
    · rw [moveFixed, top]
      simp only [push, store]
      omega
    · rw [moveFixed, slots]
      simp only [push, store, Function.update_apply]
      by_cases moved : source ≤ i ∧ i < source + (n + 1)
      · rw [if_pos moved]
        by_cases first : i = source
        · rw [if_neg (by omega), if_neg (by omega), if_pos first]
        · rw [if_pos (by omega)]
      rw [if_neg moved, if_neg (by omega)]
      by_cases placed : th.top ≤ i ∧ i < th.top + (n + 1)
      · rw [if_pos placed]
        by_cases first : i = th.top
        · rw [if_neg (by omega), if_neg (by omega), if_pos first, first, Nat.sub_self, Nat.add_zero]
        · rw [if_pos (by omega), if_neg (by omega), if_neg (by omega)]
          congr 1
          omega
      · rw [if_neg placed, if_neg (by omega), if_neg (by omega), if_neg (by omega)]

/-- The value of a register when a function is entered with `args`. -/
def startValue (env : CallEnv V) (p : Proto) (args : List V) (i : Nat) : V :=
  if i < p.numparams.toNat then args.getD i env.nil
  else if i = p.numparams.toNat ∧ p.isVararg ≠ 0 ∧ p.varargFlag varargNeedsArg then env.argTable (args.drop p.numparams.toNat)
  else env.nil

/-- The stack before the new frame is opened; the registers from its top on are not set yet. -/
structure Laid (env : CallEnv V) (p : Proto) (func : Nat) (args : List V) (th th' : Thread V) (base : Nat) : Prop where
  ci : th'.ci = th.ci
  below : ∀ i, i ≤ func → th'.slots i = th.slots i
  base_le : base ≤ th'.top
  extra : base - func - p.numparams.toNat - 1 = (if p.isVararg = 0 then [] else args.drop p.numparams.toNat).length
  room : func + 1 + (if p.isVararg = 0 then [] else args.drop p.numparams.toNat).length ≤ base
  varargs : p.isVararg ≠ 0 → ∀ (j : Nat) (v : V), (args.drop p.numparams.toNat)[j]? = some v →
    th'.slots (base - (args.drop p.numparams.toNat).length + j) = v
  regs : ∀ i, (if base + i < th'.top then th'.slots (base + i) else env.nil) = startValue env p args i

theorem laid_plain {th : Thread V} {func : Nat} {p : Proto} (plain : p.isVararg = 0) (takes : func < th.top) :
    Laid env p func (th.values (func + 1) (th.top - func - 1)) th
      (if func + 1 + p.numparams.toNat < th.top then { th with top := func + 1 + p.numparams.toNat } else th) (func + 1) where
  ci := by split <;> rfl
  below i _ := by split <;> rfl
  base_le := by
    split
    · simp only
      omega
    · exact takes
  extra := by
    rw [if_pos plain, List.length_nil]
    omega
  room := by simp [plain]
  varargs notPlain := absurd plain notPlain
  regs i := by
    simp only [startValue, plain, ne_eq, not_true_eq_false, false_and, and_false, if_false, List.getD_eq_getElem?_getD,
      getElem?_values]
    split <;> grind

/-- The thread on which `adjust_varargs` moves the parameters: the missing ones are completed, and the collector
may have run. -/
def completed (env : CallEnv V) (th : Thread V) (p : Proto) (actual : Nat) : Thread V :=
  let th := pushNils env th (p.numparams.toNat - actual)
  if p.varargFlag varargNeedsArg then (th.events (env.collector th)).checkstack p.maxstacksize.toNat else th

theorem completed_spec (quiet : env.Quiet) (th : Thread V) (p : Proto) (actual : Nat) :
    (completed env th p actual).ci = th.ci ∧ (completed env th p actual).top = th.top + (p.numparams.toNat - actual) ∧
    ∀ i, i < th.top + (p.numparams.toNat - actual) → (completed env th p actual).slots i = if th.top ≤ i then env.nil else th.slots i := by
  have top := (@pushNils_spec V env th (p.numparams.toNat - actual)).1
  have slots (i : Nat) (below : i < th.top + (p.numparams.toNat - actual)) :
      (pushNils env th (p.numparams.toNat - actual)).slots i = if th.top ≤ i then env.nil else th.slots i := by
    rw [pushNils_slots]
    split <;> split <;> first | rfl | omega
  simp only [completed]
  split
  · have kept := events_keeps (pushNils env th (p.numparams.toNat - actual)) (env.collector (pushNils env th (p.numparams.toNat - actual)))
    rw [checkstack_ci, checkstack_top, kept.ci, kept.top, pushNils_ci, checkstack_slots]
    refine ⟨rfl, top, fun i below => ?_⟩
    rw [events_slots (top ▸ below) (quiet.collector _), slots i below]
  · exact ⟨pushNils_ci .., top, slots⟩

theorem adjustVarargs_eq (th : Thread V) (p : Proto) (actual : Nat) :
    adjustVarargs env th p actual =
      let u := completed env th p actual
      let actual := max actual p.numparams.toNat
      let moved := moveFixed env u (u.top - actual) p.numparams.toNat
      (if p.varargFlag varargNeedsArg then
        moved.push (env.argTable ((List.range (actual - p.numparams.toNat)).map fun i => u.slots (u.top - (actual - p.numparams.toNat) + i)))
      else moved, u.top) := by
  simp only [adjustVarargs, completed]

theorem laid_varargs (quiet : env.Quiet) {th : Thread V} {func : Nat} {p : Proto} (isVararg : p.isVararg ≠ 0)
    (takes : func < th.top) :
    Laid env p func (th.values (func + 1) (th.top - func - 1)) th (adjustVarargs env th p (th.top - func - 1)).1
      (adjustVarargs env th p (th.top - func - 1)).2 := by
  obtain ⟨ci, top, slots⟩ := completed_spec quiet th p (th.top - func - 1)
  rw [adjustVarargs_eq]
  generalize completed env th p (th.top - func - 1) = u at ci top slots
  have first : u.top - max (th.top - func - 1) p.numparams.toNat = func + 1 := by omega
  have table : ((List.range (max (th.top - func - 1) p.numparams.toNat - p.numparams.toNat)).map fun i =>
      u.slots (u.top - (max (th.top - func - 1) p.numparams.toNat - p.numparams.toNat) + i)) =
      (th.values (func + 1) (th.top - func - 1)).drop p.numparams.toNat := by
    refine List.ext_getElem (by simp; omega) fun i below _ => ?_
    simp only [List.length_map, List.length_range] at below
    simp only [List.getElem_map, List.getElem_range, List.getElem_drop, values]
    rw [slots _ (by omega), if_neg (by omega)]
    congr 1
    omega
  simp only [first, table]
  obtain ⟨movedTop, moved⟩ := @moveFixed_spec V env u (func + 1) p.numparams.toNat (by omega)
  have movedCI := moveFixed_ci env u (func + 1) p.numparams.toNat
  generalize moveFixed env u (func + 1) p.numparams.toNat = m at movedTop moved movedCI
  -- the table is written above what was moved
  have pushed (v : V) (i : Nat) (below : i < m.top) :
      (if p.varargFlag varargNeedsArg then m.push v else m).slots i = m.slots i := by
    split
    · exact Function.update_of_ne (by omega) ..
    · rfl
  have length : ((th.values (func + 1) (th.top - func - 1)).drop p.numparams.toNat).length = th.top - func - 1 - p.numparams.toNat := by simp
  refine ⟨?_, fun i below => ?_, ?_, ?_, ?_, fun _ j v at_j => ?_, fun i => ?_⟩
  · split <;> exact movedCI.trans ci
  · rw [pushed _ _ (by omega), moved, if_neg (by omega), if_neg (by omega), slots _ (by omega), if_neg (by omega)]
  · split
    · simp only [push, store]
      omega
    · omega
  · rw [if_neg isVararg, length]
    omega
  · rw [if_neg isVararg, length]
    omega
  · have inside := (List.getElem?_eq_some_iff.1 at_j).1
    rw [length] at inside ⊢
    rw [List.getElem?_drop, getElem?_values, if_pos (by omega), Option.some.injEq] at at_j
    rw [pushed _ _ (by omega), moved, if_neg (by omega), if_neg (by omega), slots _ (by omega), if_neg (by omega), ← at_j]
    congr 1
    omega
  · by_cases isFixed : i < p.numparams.toNat
    · have inside : u.top + i < (if p.varargFlag varargNeedsArg then
          m.push (env.argTable ((th.values (func + 1) (th.top - func - 1)).drop p.numparams.toNat)) else m).top := by
        split
        · simp only [push, store]
          omega
        · omega
      rw [if_pos inside, pushed _ _ (by omega), moved, if_neg (by omega), if_pos (by omega), Nat.add_sub_cancel_left,
        slots _ (by omega), startValue, if_pos isFixed, List.getD_eq_getElem?_getD, getElem?_values]
      by_cases given : i < th.top - func - 1
      · rw [if_neg (by omega), if_pos given]
        rfl
      · rw [if_pos (by omega), if_neg given]
        rfl
    · rw [startValue, if_neg isFixed]
      by_cases needsArg : p.varargFlag varargNeedsArg = true
      · rw [if_pos needsArg]
        by_cases atTable : i = p.numparams.toNat
        · rw [if_pos (by simp only [push, store]; omega), if_pos ⟨atTable, isVararg, needsArg⟩, atTable, ← movedTop]
          exact Function.update_self ..
        · rw [if_neg (by simp only [push, store]; omega), if_neg fun both => atTable both.1]
      · rw [if_neg needsArg, if_neg (by omega), if_neg fun both => needsArg both.2.2]

theorem Laid.unchecked {p : Proto} {func n base : Nat} {args : List V} {th th' : Thread V}
    (laid : Laid env p func args (th.checkstack n) th' base) : Laid env p func args th th' base where
  ci := laid.ci.trans (checkstack_ci ..)
  below i at_i := (laid.below i at_i).trans (congrFun (checkstack_slots ..) i)
  base_le := laid.base_le
  extra := laid.extra
  room := laid.room
  varargs := laid.varargs
  regs := laid.regs

theorem incCI_stack {th th' : Thread V} (entered : th.incCI = .ok th') : th'.slots = th.slots ∧ th'.top = th.top := by
  simp only [incCI, growCI] at entered
  split at entered
  · split at entered
    · cases entered
    · split at entered
      · cases entered
      · cases entered
        exact ⟨rfl, rfl⟩
  · cases entered
    exact ⟨rfl, rfl⟩

/-- `gafqD_precall` lays the stack out and opens the frame. -/
theorem enterGafq_laid (quiet : env.Quiet) {th entered : Thread V} {func : Nat} {p : Proto} (takes : func < th.top)
    (enters : enterGafq env th func p = .ok entered) :
    ∃ laid base, Laid env p func (th.values (func + 1) (th.top - func - 1)) th laid base ∧
      entered.slots = laid.slots ∧ entered.top = laid.top ∧ entered.base = base ∧
      entered.ci = { base, func, top := base + p.maxstacksize.toNat, isGafq := true } :: th.ci := by
  have opened (u : Thread V) (base : Nat) (laid : Laid env p func (th.values (func + 1) (th.top - func - 1)) th u base)
      (enters : (do
        let v ← u.incCI
        .ok ({ v with base }.updateCI fun ci => { ci with func, base, top := base + p.maxstacksize.toNat, isGafq := true })) =
          Except.ok entered) :
      ∃ laid base, Laid env p func (th.values (func + 1) (th.top - func - 1)) th laid base ∧
        entered.slots = laid.slots ∧ entered.top = laid.top ∧ entered.base = base ∧
        entered.ci = { base, func, top := base + p.maxstacksize.toNat, isGafq := true } :: th.ci := by
    cases stepped : u.incCI with
    | error e => rw [stepped] at enters; cases enters
    | ok v =>
      rw [stepped] at enters
      cases enters
      have ci := (incCI_spec stepped).1
      have stack := incCI_stack stepped
      exact ⟨u, base, laid, stack.1, stack.2, rfl, by simp [updateCI, ci, laid.ci]⟩
  have args : (th.checkstack p.maxstacksize.toNat).values (func + 1) ((th.checkstack p.maxstacksize.toNat).top - func - 1) =
      th.values (func + 1) (th.top - func - 1) := by
    rw [checkstack_top]
    exact values_congr fun i _ => by rw [checkstack_slots]
  unfold enterGafq at enters
  by_cases plain : p.isVararg = 0
  · simp only [plain, if_true] at enters
    have laid := @laid_plain V env (th.checkstack p.maxstacksize.toNat) func p plain (by rwa [checkstack_top])
    exact opened _ _ (args ▸ laid.unchecked) enters
  · simp only [plain, if_false] at enters
    have laid := @laid_varargs V env quiet (th.checkstack p.maxstacksize.toNat) func p plain (by rwa [checkstack_top])
    exact opened _ _ (args ▸ laid.unchecked) enters

theorem start_regs {p : Proto} {known : List (Option V)} {args : List V} (agrees : ValuesAgree known args) {nresults : Int} {i : Nat}
    {v : V} (at_i : (Record.start env p known nresults).regs i = some v) : i < p.maxstacksize.toNat ∧ startValue env p args i = v := by
  simp only [Record.start] at at_i
  split at at_i
  · cases at_i
  next inside =>
  refine ⟨Nat.lt_of_not_le inside, ?_⟩
  unfold startValue
  split at at_i
  · next isFixed =>
    rw [if_pos isFixed]
    rw [List.getD_eq_getElem?_getD] at at_i ⊢
    cases known_i : known[i]? with
    | none =>
      have missing : args[i]? = none := by
        rw [List.getElem?_eq_none_iff] at known_i ⊢
        exact agrees.length ▸ known_i
      rw [known_i] at at_i
      rw [missing]
      exact Option.some.inj at_i
    | some w =>
      rw [known_i] at at_i
      cases at_i
      rw [agrees.value i v known_i]
      rfl
  · next notFixed =>
    rw [if_neg notFixed]
    split at at_i
    · next isTable =>
      rw [if_pos isTable]
      obtain ⟨vs, all, rfl⟩ := Option.map_eq_some_iff.1 at_i
      rw [(agrees.drop _).mapM_id all]
    · next notTable =>
      rw [if_neg notTable]
      exact Option.some.inj at_i

theorem Laid.frameOf {p : Proto} {func base : Nat} {known : List (Option V)} {args : List V} {th laid : Thread V} {nresults : Int}
    (isLaid : Laid env p func args th laid base) (current : env.function? (th.slots func) = some (.gafq p)) (agrees : ValuesAgree known args)
    (wanted : -1 ≤ nresults) :
    FrameOf env (clearUpTo env laid (base + p.maxstacksize.toNat)).slots (base + p.maxstacksize.toNat)
      { base, func, top := base + p.maxstacksize.toNat, isGafq := true, nresults } (.start env p known nresults) where
  current := by
    have room := isLaid.room
    have base_le := isLaid.base_le
    simp only [clearUpTo]
    rw [if_neg (by omega), isLaid.below _ le_rfl]
    exact current
  top := rfl
  nresults := rfl
  wanted := wanted
  extra := by
    have extra := isLaid.extra
    have length := agrees.length
    simp only [Record.start]
    rw [extra]
    split
    · rfl
    · simp [length]
  room := by
    have room := isLaid.room
    have length := agrees.length
    simp only [Record.start]
    split
    · next plain => simpa [plain] using room
    · next isVararg => simpa [isVararg, length] using room
  varargs j v at_j := by
    by_cases plain : p.isVararg = 0
    · simp [Record.start, plain] at at_j
    · simp only [Record.start, plain, if_false] at at_j ⊢
      have inside := (List.getElem?_eq_some_iff.1 at_j).1
      have room := isLaid.room
      have base_le := isLaid.base_le
      have length : (known.drop p.numparams.toNat).length = (args.drop p.numparams.toNat).length := by simp [agrees.length]
      rw [if_neg plain] at room
      simp only [clearUpTo]
      rw [if_neg (by omega), length]
      exact isLaid.varargs plain j v ((agrees.drop _).value j v at_j)
  regs i v at_i := by
    obtain ⟨inside, value⟩ := start_regs agrees at_i
    refine ⟨Nat.add_lt_add_left inside base, ?_⟩
    rw [← value, ← isLaid.regs i]
    simp only [clearUpTo]
    split
    · rw [if_neg (by omega)]
    · rw [if_pos (by omega)]

@[simp] theorem events_base (th : Thread V) (es : List (StackEvent V)) : (th.events es).base = th.base := by
  induction es generalizing th with
  | nil => rfl
  | cons e es inductionHypothesis =>
    have rest : (th.events (e :: es)).base = (th.event e).base := inductionHypothesis (th.event e)
    rw [rest]
    cases e with
    | check above n => simp [event]
    | collect above =>
      simp only [event, checkstacksizes]
      split
      · rfl
      · split <;> split <;> rfl
    | store | sethook => rfl

theorem callhook_base {e : HookEvent} {th th' : Thread V} (ran : callhook env e th = .ok th') : th'.base = th.base := by
  unfold callhook at ran
  split at ran
  · split at ran
    · cases ran
    · cases ran
      simp [closeHook, updateCI, openHook]
  · cases ran
    rfl

/-- A Gafq function is called and its frame is open: it holds the record of the call. -/
theorem startGafq_frameOf (quiet : env.Quiet) {th entered started : Thread V} {func : Nat} {p : Proto} {nresults : Int}
    {known : List (Option V)} (takes : func < th.top) (wanted : -1 ≤ nresults) (current : env.function? (th.slots func) = some (.gafq p))
    (agrees : ValuesAgree known (th.values (func + 1) (th.top - func - 1))) (enters : enterGafq env th func p = .ok entered)
    (starts : startGafq env entered nresults = .ok started) :
    ∃ call, started.ci = call :: th.ci ∧ call.func = func ∧ started.base = call.base ∧
      started.top = call.base + p.maxstacksize.toNat ∧ FrameOf env started.slots started.top call (.start env p known nresults) ∧
      ∀ i, i < func → started.slots i = th.slots i := by
  obtain ⟨laid, base, isLaid, slots, top, atBase, ci⟩ := enterGafq_laid quiet takes enters
  have room := isLaid.room
  have base_le := isLaid.base_le
  have cleared : (prepareGafq env entered nresults).slots = (clearUpTo env laid (base + p.maxstacksize.toNat)).slots := by
    simp [prepareGafq, updateCI, clearUpTo, ci, slots, top]
  have preparedTop : (prepareGafq env entered nresults).top = base + p.maxstacksize.toNat := by simp [prepareGafq, updateCI, ci]
  have preparedCI : (prepareGafq env entered nresults).ci =
      { base, func, top := base + p.maxstacksize.toNat, isGafq := true, nresults } :: th.ci := by
    simp [prepareGafq, updateCI, clearUpTo, ci]
  have preparedBase : (prepareGafq env entered nresults).base = base := by simp [prepareGafq, updateCI, clearUpTo, atBase]
  have below (i : Nat) (at_i : i < func) : (prepareGafq env entered nresults).slots i = th.slots i := by
    rw [cleared]
    simp only [clearUpTo]
    rw [if_neg (by omega), isLaid.below i (by omega)]
  have frame : FrameOf env (prepareGafq env entered nresults).slots (prepareGafq env entered nresults).top
      { base, func, top := base + p.maxstacksize.toNat, isGafq := true, nresults } (.start env p known nresults) := by
    rw [cleared, preparedTop]
    exact isLaid.frameOf current agrees wanted
  simp only [startGafq] at starts
  split at starts
  · cases hooked : callhook env .call { prepareGafq env entered nresults with savedpc := (prepareGafq env entered nresults).savedpc + 1 } with
    | error e => rw [hooked] at starts; cases starts
    | ok after =>
      rw [hooked] at starts
      cases starts
      obtain ⟨hookedTop, hookedCI⟩ := callhook_frames hooked
      have kept (i : Nat) (at_i : i < (prepareGafq env entered nresults).top) : after.slots i = (prepareGafq env entered nresults).slots i :=
        callhook_slots quiet.hooks hooked at_i
      refine ⟨_, hookedCI.trans preparedCI, rfl, (callhook_base hooked).trans preparedBase, hookedTop.trans preparedTop, ?_, ?_⟩
      · simp only [hookedTop]
        exact frame.congr (by simp only [preparedTop]; omega) le_rfl kept
      · intro i at_i
        exact (kept i (by omega)).trans (below i at_i)
  · cases starts
    exact ⟨_, preparedCI, rfl, preparedBase, preparedTop, frame, below⟩

theorem tryfuncTM_spec {th th' : Thread V} {func : Nat} (ran : tryfuncTM env th func = .ok th') (takes : func < th.top) :
    th'.ci = th.ci ∧ th'.top = th.top + 1 ∧ th'.savedpc = th.savedpc ∧ th'.slots func = env.callTM (th.slots func) ∧
    (∀ i, i < func → th'.slots i = th.slots i) ∧
    th'.values (func + 1) (th'.top - func - 1) = th.slots func :: th.values (func + 1) (th.top - func - 1) := by
  simp only [tryfuncTM] at ran
  split at ran
  · cases ran
  have raised (u : Thread V) : u.incrTop.top = u.top + 1 ∧ u.incrTop.slots = u.slots ∧ u.incrTop.ci = u.ci ∧ u.incrTop.savedpc = u.savedpc := by
    refine ⟨by simp [incrTop], by simp [incrTop], by simp [incrTop], ?_⟩
    simp only [incrTop, checkstack, growstack]
    split
    · split <;> rfl
    · rfl
  obtain ⟨top, ci, savedpc, slots⟩ : th'.top = th.top + 1 ∧ th'.ci = th.ci ∧ th'.savedpc = th.savedpc ∧ ∀ i, th'.slots i =
      if i = func then env.callTM (th.slots func) else if func < i ∧ i ≤ th.top then th.slots (i - 1) else th.slots i := by
    cases ran
    exact ⟨by simp [store, raised], by simp [store, raised], by simp [store, raised], fun i => by
      simp only [store, raised, Function.update_apply]⟩
  refine ⟨ci, top, savedpc, by rw [slots, if_pos rfl], fun i below => ?_, ?_⟩
  · rw [slots, if_neg (by omega), if_neg (by omega)]
  · refine List.ext_getElem? fun i => ?_
    rw [getElem?_values, top]
    cases i with
    | zero =>
      rw [if_pos (by omega), slots, if_neg (by omega), if_pos (by omega)]
      simp
    | succ i =>
      rw [List.getElem?_cons_succ, getElem?_values]
      by_cases inside : i < th.top - func - 1
      · rw [if_pos (by omega), if_pos inside, slots, if_neg (by omega), if_pos (by omega)]
        congr 2
      · rw [if_neg (by omega), if_neg inside]

/-- A call of the Gafq function `p` opens a frame that holds the record of the call. -/
theorem precall_frameOf (quiet : env.Quiet) {th th' : Thread V} {func : Nat} {p : Proto} {hole : Bool} {nresults : Int}
    {known : List (Option V)} (takes : func < th.top) (wanted : -1 ≤ nresults) (calls : env.Calls (th.slots func) p hole)
    (agrees : ValuesAgree known ((if hole then [th.slots func] else []) ++ th.values (func + 1) (th.top - func - 1)))
    (ran : precall env th func nresults = .ok (.gafq, th')) :
    ∃ call, th'.ci = call :: th.ci.modifyHead (fun ci => { ci with savedpc := th.savedpc }) ∧ call.func = func ∧
      th'.base = call.base ∧ th'.top = call.base + p.maxstacksize.toNat ∧
      FrameOf env th'.slots th'.top call (.start env p known nresults) ∧ ∀ i, i < func → th'.slots i = th.slots i := by
  -- the function itself stands at `func` of `u`
  have direct (u : Thread V) (below : ∀ i, i < func → u.slots i = th.slots i) (ci : u.ci = th.ci) (savedpc : u.savedpc = th.savedpc)
      (inside : func < u.top) (current : env.function? (u.slots func) = some (.gafq p))
      (agrees : ValuesAgree known (u.values (func + 1) (u.top - func - 1)))
      (ran : (do
        let entered ← enterGafq env (u.updateCI fun ci => { ci with savedpc := u.savedpc }) func p
        let started ← startGafq env entered nresults
        .ok (.gafq, started)) = Except.ok (PrecallResult.gafq, th')) :
      ∃ call, th'.ci = call :: th.ci.modifyHead (fun ci => { ci with savedpc := th.savedpc }) ∧ call.func = func ∧
        th'.base = call.base ∧ th'.top = call.base + p.maxstacksize.toNat ∧
        FrameOf env th'.slots th'.top call (.start env p known nresults) ∧ ∀ i, i < func → th'.slots i = th.slots i := by
    cases enters : enterGafq env (u.updateCI fun ci => { ci with savedpc := u.savedpc }) func p with
    | error e => rw [enters] at ran; cases ran
    | ok entered =>
      simp only [enters, bind, Except.bind] at ran
      cases starts : startGafq env entered nresults with
      | error e => simp only [starts] at ran; cases ran
      | ok started =>
        simp only [starts] at ran
        cases ran
        obtain ⟨call, frames, atFunc, base, top, frame, kept⟩ :=
          @startGafq_frameOf V env quiet (u.updateCI _) entered th' func p nresults known inside wanted current agrees enters starts
        refine ⟨call, ?_, atFunc, base, top, frame, fun i at_i => (kept i at_i).trans (below i at_i)⟩
        rw [frames, ← ci, ← savedpc]
        rfl
  unfold CallEnv.Calls at calls
  cases hole with
  | false =>
    simp only [Bool.false_eq_true, if_false, List.nil_append] at calls agrees
    simp only [precall, calls, Option.isNone_some, Bool.false_eq_true, if_false, bind, Except.bind] at ran
    exact direct th (fun _ _ => rfl) rfl rfl takes calls agrees ran
  | true =>
    simp only [if_true, List.cons_append, List.nil_append] at calls agrees
    cases tried : tryfuncTM env th func with
    | error e => simp [precall, calls.1, tried, bind, Except.bind] at ran
    | ok u =>
      obtain ⟨ci, top, savedpc, tm, below, values⟩ := tryfuncTM_spec tried takes
      have current : env.function? (u.slots func) = some (.gafq p) := tm ▸ calls.2
      simp only [precall, calls.1, Option.isNone_none, if_true, tried, bind, Except.bind, current] at ran
      exact direct u below ci savedpc (by omega) current (values ▸ agrees) ran

/-! ## Leaving a function -/

theorem length_adjust (nil : V) (wanted : Int) (vs : List V) :
    (adjust nil wanted vs).length = if wanted < 0 then vs.length else wanted.toNat := by
  unfold adjust
  split
  · rfl
  · simp only [List.length_append, List.length_take, List.length_replicate]
    omega

/-- What `gafqD_poscall` leaves: the frame is gone, and the results stand where the function was. -/
structure Returned (env : CallEnv V) (th th' : Thread V) (func : Nat) (rest : List CallInfo) (wanted : Int) (results : List V) : Prop where
  ci : th'.ci = rest
  base : th'.base = (rest.headD {}).base
  savedpc : th'.savedpc = (rest.headD {}).savedpc
  top : th'.top = func + (adjust env.nil wanted results).length
  values : th'.values func (adjust env.nil wanted results).length = adjust env.nil wanted results
  below : ∀ i, i < func → th'.slots i = th.slots i

theorem poscall_returned (quiet : env.Quiet) {th th' : Thread V} {first : Nat} {more : Int} {call : CallInfo} {rest : List CallInfo}
    (frames : th.ci = call :: rest) (func_le : call.func ≤ th.top) (ran : poscall env th first = .ok (th', more)) :
    more = call.nresults + 1 ∧ Returned env th th' call.func rest call.nresults (th.values first (th.top - first)) := by
  obtain ⟨hooked, kept, more, rfl⟩ := poscall_spec frames ran
  have same : th.values first (th.top - first) = hooked.values first (hooked.top - first) := by
    rw [kept.top]
    exact (values_congr fun i inside => kept.slots quiet.hooks _ (by omega)).symm
  have values := moveResults_values env
    { hooked with ci := rest, base := (rest.headD {}).base, savedpc := (rest.headD {}).savedpc } call.func first call.nresults
  have length := length_adjust env.nil call.nresults (hooked.values first (hooked.top - first))
  rw [length_values] at length
  rw [same]
  refine ⟨more, rfl, rfl, rfl, ?_, ?_, fun i below => ?_⟩
  · rw [length]
    simp only [moveResults]
    split <;> rfl
  · rw [length]
    refine Eq.trans ?_ values
    congr 1
    split
    · next all => simp [moveResults, all]
    · rfl
  · rw [moveResults_below env _ _ below]
    exact kept.slots quiet.hooks _ (by omega)

/-! ## C functions -/

theorem openC_spec (quiet : env.Quiet) {th opened : Thread V} {func : Nat} {nresults : Int} (ran : openC env th func nresults = .ok opened) :
    (∃ call, opened.ci = call :: th.ci ∧ call.func = func ∧ call.nresults = nresults) ∧ opened.base = func + 1 ∧ opened.top = th.top ∧
    ∀ i, i < th.top → opened.slots i = th.slots i := by
  unfold openC at ran
  cases stepped : (th.checkstack minStack).incCI with
  | error e => rw [stepped] at ran; cases ran
  | ok u =>
    have ci := (incCI_spec stepped).1
    obtain ⟨slots, top⟩ := incCI_stack stepped
    rw [checkstack_ci] at ci
    rw [checkstack_slots] at slots
    rw [checkstack_top] at top
    simp only [stepped, bind, Except.bind] at ran
    split at ran
    · obtain ⟨hookedTop, hookedCI⟩ := callhook_frames ran
      refine ⟨?_, callhook_base ran, hookedTop.trans top, fun i below => ?_⟩
      · rw [hookedCI]
        simp [updateCI, ci]
      · rw [callhook_slots quiet.hooks ran (by simpa [updateCI, top] using below)]
        exact congrFun slots i
    · cases ran
      exact ⟨by simp [updateCI, ci], rfl, top, fun i _ => congrFun slots i⟩

theorem callCFunction_of_opens {th opened returned : Thread V} {func n : Nat} {nresults : Int}
    (opens : openC env th func nresults = .ok opened) (calls : env.callC (opened.slots func) opened = some (returned, (n : Int))) :
    callCFunction env th func nresults = (poscall env returned (returned.top - n)).map fun r => (.c, r.1) := by
  unfold openC at opens
  unfold callCFunction
  cases stepped : (th.checkstack minStack).incCI with
  | error e => rw [stepped] at opens; cases opens
  | ok u =>
    simp only [stepped, bind, Except.bind] at opens ⊢
    by_cases masked : u.maskCall = true
    · simp only [updateCI, masked, if_true] at opens ⊢
      simp only [opens, calls, Int.toNat_natCast]
      rw [if_neg (by omega)]
      rfl
    · simp only [updateCI, masked, Bool.false_eq_true, if_false] at opens ⊢
      cases opens
      simp only at calls
      simp only [calls, Int.toNat_natCast]
      rw [if_neg (by omega)]
      rfl

/-- A C function is called and has returned; it may have changed slots below. -/
theorem precall_returned (quiet : env.Quiet) {th th' w : Thread V} {func : Nat} {nresults : Int} {results : List V} (takes : func < th.top)
    (leaves : env.Leaves th func nresults results) (ran : precall env th func nresults = .ok (.c, th'))
    (kept : ∀ i, i < func → th'.slots i = w.slots i) :
    Returned env w th' func (th.ci.modifyHead fun ci => { ci with savedpc := th.savedpc }) nresults results := by
  obtain ⟨called, opened, returned, n, tried, opens, calls, rfl⟩ := leaves
  obtain ⟨ci, savedpc, inside⟩ : called.ci = th.ci ∧ called.savedpc = th.savedpc ∧ func < called.top := by
    split at tried
    · obtain ⟨ci, top, savedpc, -⟩ := tryfuncTM_spec tried takes
      exact ⟨ci, savedpc, by omega⟩
    · cases tried
      exact ⟨rfl, rfl, takes⟩
  obtain ⟨⟨call, openedCI, atFunc, wanted⟩, openedBase, openedTop, -⟩ := openC_spec quiet opens
  obtain ⟨room, call', returnedCI, atFunc', wanted'⟩ := quiet.callC _ _ _ _ calls
  rw [openedCI] at returnedCI atFunc' wanted'
  simp only [List.headD_cons, List.tail_cons] at returnedCI atFunc' wanted'
  -- the C function returned, and `gafqD_poscall` ran
  obtain ⟨more, ended⟩ : ∃ more, poscall env returned (returned.top - n) = .ok (th', more) := by
    have isC : callCFunction env (called.updateCI fun ci => { ci with savedpc := called.savedpc }) func nresults = .ok (.c, th') := by
      simp only [precall, bind, Except.bind] at ran
      by_cases none : (env.function? (th.slots func)).isNone = true
      all_goals
        first
        | rw [if_pos none] at tried ran
          simp only [tried] at ran
        | rw [if_neg none] at tried ran
          rw [Except.ok.inj tried] at ran
        split at ran
        · next p isGafq =>
          cases enters : enterGafq env (called.updateCI fun ci => { ci with savedpc := called.savedpc }) func p with
          | error e => simp [enters] at ran
          | ok entered =>
            simp only [enters] at ran
            cases starts : startGafq env entered nresults with
            | error e => simp [starts] at ran
            | ok started => simp [starts] at ran
        · exact ran
        · exact ran
    rw [callCFunction_of_opens opens calls] at isC
    cases ended : poscall env returned (returned.top - n) with
    | error e => rw [ended] at isC; cases isC
    | ok r =>
      rw [ended] at isC
      cases isC
      exact ⟨r.2, rfl⟩
  obtain ⟨-, result⟩ := poscall_returned quiet returnedCI (by omega) ended
  have count : returned.top - (returned.top - n) = n := by omega
  rw [count, atFunc', wanted', atFunc, wanted] at result
  refine ⟨result.ci.trans ?_, ?_, ?_, result.top, result.values, kept⟩
  · rw [← ci, ← savedpc]
    rfl
  · rw [result.base, ← ci, ← savedpc]
    rfl
  · rw [result.savedpc, ← ci, ← savedpc]
    rfl

end Thread

end Gafq
