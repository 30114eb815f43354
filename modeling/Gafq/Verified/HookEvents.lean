import Gafq.Hooks

/-! # When the hooks are called

The count hook is called before every instruction whose number is a multiple of the count.  No instruction
is executed on another line than the one that the line hook has been called with last for the same call.
-/

namespace Gafq

open Base

namespace Tracing

variable {t t' : Tracing} {p : Proto} {npc : Nat}

/-- The settings of the hooks are the same, and so is the counter. -/
structure SameHooks (t t' : Tracing) : Prop where
  hook : t'.hook = t.hook
  hookmask : t'.hookmask = t.hookmask
  basehookcount : t'.basehookcount = t.basehookcount
  hookcount : t'.hookcount = t.hookcount

theorem mapCall_same (t : Tracing) (u : TracedCall → TracedCall) : SameHooks t (t.mapCall u) := by
  unfold mapCall
  split <;> exact ⟨rfl, rfl, rfl, rfl⟩

theorem push_same (t : Tracing) (f : TracedCall) : SameHooks t (t.push f) := by
  unfold push
  split <;> exact ⟨rfl, rfl, rfl, rfl⟩

theorem pop_same (t : Tracing) : SameHooks t t.pop := by
  unfold pop
  split <;> exact ⟨rfl, rfl, rfl, rfl⟩

theorem fetch_settings (t : Tracing) (p : Proto) (npc : Nat) :
    (t.fetch p npc).1.hook = t.hook ∧ (t.fetch p npc).1.hookmask = t.hookmask ∧
      (t.fetch p npc).1.basehookcount = t.basehookcount := by
  unfold fetch
  split
  · dsimp only
    split <;> exact ⟨rfl, rfl, rfl⟩
  · exact ⟨rfl, rfl, rfl⟩

theorem fetch_lines (line : t.hookmask.line = true) (p : Proto) (npc : Nat) :
    t.fetch p npc = traceexec { t with hookcount := t.hookcount - 1 } p npc := by
  simp [fetch, line]

/-- A step without an instruction leaves the hooks alone. -/
theorem Step.same {l : TraceLabel} (step : Step t l t') (isOther : l = .other) : SameHooks t t' := by
  cases step with
  | fetch => cases isOther
  | hookCalled => exact ⟨rfl, rfl, rfl, rfl⟩
  | hookReturned => exact ⟨rfl, rfl, rfl, rfl⟩
  | call =>
    have saved := mapCall_same t fun f => { f with savedpc := t.savedpc }
    have pushed := push_same (t.mapCall fun f => { f with savedpc := t.savedpc })
    exact ⟨(pushed _).hook.trans saved.hook, (pushed _).hookmask.trans saved.hookmask,
      (pushed _).basehookcount.trans saved.basehookcount, (pushed _).hookcount.trans saved.hookcount⟩
  | tailcall =>
    have replaced := mapCall_same t
    exact ⟨(replaced _).hook, (replaced _).hookmask, (replaced _).basehookcount, (replaced _).hookcount⟩
  | ret =>
    have popped := pop_same t
    exact ⟨popped.hook, popped.hookmask, popped.basehookcount, popped.hookcount⟩
  | raiseInHook => exact ⟨rfl, rfl, rfl, rfl⟩
  | raise => exact ⟨rfl, rfl, rfl, rfl⟩
  | loadFails => exact ⟨rfl, rfl, rfl, rfl⟩
  | collectFails => exact ⟨rfl, rfl, rfl, rfl⟩

theorem Step.of_fetch {b : Bool} {events : List TraceEvent} (step : Step t (.fetch p npc b events) t') :
    b = t.inHook ∧ events = (t.fetch p npc).2 ∧ t.hooked ≠ some [] ∧ SameHooks (t.fetch p npc).1 t' := by
  cases step with
  | fetch runs =>
    refine ⟨rfl, rfl, runs, ?_⟩
    have same (pc : Nat) := mapCall_same { (t.fetch p npc).1 with savedpc := pc } fun f => f.reported (t.fetch p npc).2
    exact ⟨(same _).hook, (same _).hookmask, (same _).basehookcount, (same _).hookcount⟩

/-- A function with two instructions on one line. -/
def oneLine : Proto := { (default : Proto) with lineinfo := [7, 7] }

/-- A function called, before its first instruction. -/
def called (p : Proto) : Tracing :=
  { hook := false
    hookmask := ⟨false, false, false, false⟩
    basehookcount := 0
    hookcount := 0
    savedpc := 0
    calls := [⟨some p, 0, false, none⟩]
    hooked := none }

/-! ## The count hook -/

/-- The hook is to be called every `count` instructions, and `n` instructions have been executed since it was set. -/
structure Counting (count : Int) (n : Nat) (t : Tracing) : Prop where
  hook : t.hook = true
  counts : t.hookmask.count = true
  base : t.basehookcount = count
  left : t.hookcount = count - n % count

theorem isNone_of_runs (runs : t.hooked ≠ some []) : t.hooked.isNone = !t.inHook := by
  unfold inHook
  cases hooked : t.hooked with
  | none => rfl
  | some fs =>
    cases fs with
    | nil => exact absurd hooked runs
    | cons => rfl

theorem mem_callhook {e e' : TraceEvent} : e ∈ t.callhook e' ↔ e = e' ∧ t.hook = true ∧ t.hooked.isNone = true := by
  unfold callhook
  cases t.hook <;> cases t.hooked.isNone <;> simp

theorem count_notMem_lines (lined : Bool) (n : Int) : .count ∉ if lined then t.callhook (.line n) else [] := by
  cases lined <;> simp [mem_callhook]

theorem succ_emod (n : Nat) {count : Int} (positive : 0 < count) :
    ((n + 1 : Nat) : Int) % count = if (n : Int) % count = count - 1 then 0 else n % count + 1 := by
  have whole := Int.mul_ediv_add_emod n count
  have low := Int.emod_nonneg n (by omega : count ≠ 0)
  have high := Int.emod_lt_of_pos n positive
  split
  · next last =>
    have multiple : ((n + 1 : Nat) : Int) = count * (n / count + 1) := by
      push_cast
      linarith
    rw [multiple, Int.mul_emod_right]
  · next inside =>
    have shifted : ((n + 1 : Nat) : Int) = (n % count + 1) + count * (n / count) := by
      push_cast
      linarith
    rw [shifted, Int.add_mul_emod_self_left, Int.emod_eq_of_lt (by omega) (by omega)]

/-- An instruction counts, and the hook is called when the counter comes to its end. -/
theorem fetch_counted (counts : t.hookmask.count = true) (p : Proto) (npc : Nat) :
    (t.fetch p npc).1.hookcount = (if t.hookcount - 1 = 0 then t.basehookcount else t.hookcount - 1) ∧
      (.count ∈ (t.fetch p npc).2 ↔ t.hookcount - 1 = 0 ∧ t.hook = true ∧ t.hooked.isNone = true) := by
  by_cases ends : t.hookcount - 1 = 0
  · have traced : t.fetch p npc = traceexec { t with hookcount := t.hookcount - 1 } p npc := by
      simp [fetch, counts, ends]
    rw [traced, if_pos ends]
    constructor
    · simp [traceexec, counts, ends]
    · simp only [traceexec, List.mem_append, count_notMem_lines, or_false]
      simp [counts, ends, callhook]
  · rw [if_neg ends]
    cases line : t.hookmask.line with
    | false => simp [fetch, counts, line, ends]
    | true =>
      rw [fetch_lines line]
      constructor
      · simp [traceexec, ends]
      · simp only [traceexec, List.mem_append, count_notMem_lines, or_false]
        simp [ends]

theorem Counting.fetch {count : Int} {n : Nat} {t' : Tracing} (counting : Counting count n t) (positive : 0 < count)
    (same : SameHooks (t.fetch p npc).1 t') : Counting count (n + 1) t' := by
  obtain ⟨hook, counts, base⟩ := fetch_settings t p npc
  refine ⟨?_, ?_, ?_, ?_⟩
  · rw [same.hook, hook, counting.hook]
  · rw [same.hookmask, counts, counting.counts]
  · rw [same.basehookcount, base, counting.base]
  · rw [same.hookcount, (fetch_counted counting.counts p npc).1, succ_emod n positive, counting.base, counting.left]
    split <;> split <;> omega

theorem Counting.same {count : Int} {n : Nat} (counting : Counting count n t) (same : SameHooks t t') :
    Counting count n t' :=
  ⟨same.hook.trans counting.hook, same.hookmask ▸ counting.counts, same.basehookcount.trans counting.base,
    same.hookcount.trans counting.left⟩

/-- A run counts its instructions, those of functions called by hooks too. -/
theorem Counting.run {count : Int} {n : Nat} {ls : List TraceLabel} (counting : Counting count n t) (positive : 0 < count)
    (run : LabelledRun Step t ls t') : Counting count (n + ls.countP TraceLabel.isFetch) t' := by
  induction run generalizing n with
  | refl => exact counting
  | @head _ _ _ l ls first _ inductionHypothesis =>
    cases l with
    | fetch p npc b events =>
      obtain ⟨_, _, _, same⟩ := first.of_fetch
      have rest := inductionHypothesis (counting.fetch positive same)
      rw [List.countP_cons_of_pos (by rfl), Nat.add_comm _ 1, ← Nat.add_assoc]
      exact rest
    | other =>
      have rest := inductionHypothesis (counting.same (first.same rfl))
      rw [List.countP_cons_of_neg (by simp [TraceLabel.isFetch])]
      exact rest

/-- A mask that is not empty turns the hook on. -/
theorem sethook_on {mask : HookMask} (on : mask ≠ ⟨false, false, false, false⟩) (t : Tracing) (count : Int) :
    t.sethook true mask count = { t with hook := true, hookmask := mask, basehookcount := count, hookcount := count } := by
  simp [sethook, resethookcount, on]

theorem sethook_counting (t : Tracing) {mask : HookMask} {count : Int} (counts : mask.count = true) :
    Counting count 0 (t.sethook true mask count) := by
  have on : mask ≠ ⟨false, false, false, false⟩ := by
    rintro rfl
    cases counts
  rw [sethook_on on]
  exact ⟨rfl, counts, rfl, by simp⟩

/-- The count hook is called before the instructions whose numbers are multiples of the count, since it has been
set, except for those of functions called by a hook. -/
theorem countHook_periodic {t₁ t₂ : Tracing} {mask : HookMask} {count : Int} {ls : List TraceLabel} {b : Bool}
    {events : List TraceEvent} (counts : mask.count = true) (positive : 0 < count)
    (run : LabelledRun Step (t.sethook true mask count) ls t₁) (executes : Step t₁ (.fetch p npc b events) t₂) :
    .count ∈ events ↔ b = false ∧ count ∣ (ls.countP TraceLabel.isFetch + 1 : Nat) := by
  have counting := (sethook_counting t counts).run positive run
  obtain ⟨rfl, rfl, runs, -⟩ := executes.of_fetch
  have left := counting.left
  rw [(fetch_counted counting.counts p npc).2, isNone_of_runs runs, Int.dvd_iff_emod_eq_zero, succ_emod _ positive, left]
  have low := Int.emod_nonneg (0 + ls.countP TraceLabel.isFetch : Nat) (by omega : count ≠ 0)
  simp only [counting.hook, true_and, Nat.zero_add] at low ⊢
  cases t₁.inHook with
  | true => simp
  | false =>
    simp only [Bool.not_false, and_true, true_and]
    split <;> omega

/-- Every second instruction is counted. -/
theorem countHook_periodic_oneLine :
    ∃ t₁ t₂, LabelledRun Step ((called oneLine).sethook true ⟨false, false, false, true⟩ 2) [.fetch oneLine 0 false []] t₁ ∧
      Step t₁ (.fetch oneLine 1 false [.count]) t₂ ∧
      (TraceEvent.count ∈ [TraceEvent.count] ↔
        false = false ∧ (2 : Int) ∣ ([TraceLabel.fetch oneLine 0 false []].countP TraceLabel.isFetch + 1 : Nat)) := by
  obtain ⟨t₁, t₂, first, second⟩ : ∃ t₁ t₂,
      Step ((called oneLine).sethook true ⟨false, false, false, true⟩ 2) (.fetch oneLine 0 false []) t₁ ∧
        Step t₁ (.fetch oneLine 1 false [.count]) t₂ :=
    ⟨_, _, @Step.fetch _ ⟨some oneLine, 0, false, none⟩ oneLine 0 false (by intro h; cases h) rfl rfl (.inr rfl),
      @Step.fetch _ ⟨some oneLine, 0, true, none⟩ oneLine 1 false (by intro h; cases h) rfl rfl (.inl rfl)⟩
  exact ⟨t₁, t₂, .single first, second, countHook_periodic rfl (by decide) (.single first) second⟩

end Tracing

/-! ## The line hook -/

/-- A function is on the line that has been reported last for it, if it has executed an instruction. -/
def TracedCall.Reported (f : TracedCall) : Prop :=
  ∀ p, f.proto = some p → f.started = true → 1 ≤ f.savedpc ∧ f.line = some (getline p (f.savedpc - 1))

namespace Tracing

variable {t t' : Tracing} {p : Proto} {npc : Nat}

/-- The functions under way with their positions; `ci->savedpc` of the innermost one is out of date. -/
def positions (t : Tracing) : List TracedCall :=
  if t.inHook then t.calls else t.calls.modifyHead fun f => { f with savedpc := t.savedpc }

/-- The innermost call is taken from those of the hook first. -/
theorem hooked_cases (t : Tracing) :
    (t.hooked = none ∧ t.inHook = false) ∨ (t.hooked = some [] ∧ t.inHook = false) ∨
      ∃ f fs, t.hooked = some (f :: fs) ∧ t.inHook = true := by
  cases hooked : t.hooked with
  | none => exact .inl ⟨rfl, by simp [inHook, hooked]⟩
  | some under =>
    cases under with
    | nil => exact .inr (.inl ⟨rfl, by simp [inHook, hooked]⟩)
    | cons f fs => exact .inr (.inr ⟨f, fs, rfl, by simp [inHook, hooked]⟩)

theorem positions_outside (outside : t.inHook = false) :
    t.positions = t.calls.modifyHead fun f => { f with savedpc := t.savedpc } := by
  simp [positions, outside]

theorem positions_inHook (inside : t.inHook = true) : t.positions = t.calls := by
  simp [positions, inside]

theorem mem_positions {f g : TracedCall} {rest : List TracedCall} (calls : t.calls = f :: rest) (suspended : g ∈ rest) :
    g ∈ t.positions := by
  unfold positions
  rw [calls]
  split
  · exact List.mem_cons_of_mem _ suspended
  · exact List.mem_cons_of_mem _ suspended

/-- After a return and after an error the position of the innermost function is its own. -/
theorem positions_restored {f : TracedCall} (innermost : t.current = some f) (restored : t.savedpc = f.savedpc) :
    t.positions = t.calls := by
  cases inside : t.inHook with
  | true => exact positions_inHook inside
  | false =>
    rw [current, inside] at innermost
    obtain ⟨rest, calls⟩ := List.head?_eq_some_iff.mp innermost
    rw [positions_outside inside, calls, restored]
    rfl

/-- A position lost is that of the innermost function. -/
theorem positions_savedpc {f g : TracedCall} {pc : Nat} (innermost : t.current = some f)
    (underWay : g ∈ positions { t with savedpc := pc }) : g.proto = f.proto ∨ g ∈ t.positions := by
  cases inside : t.inHook with
  | true =>
    rw [positions_inHook (by exact inside)] at underWay
    rw [positions_inHook inside]
    exact .inr underWay
  | false =>
    rw [current, inside] at innermost
    obtain ⟨rest, calls⟩ := List.head?_eq_some_iff.mp innermost
    rw [positions_outside (by exact inside)] at underWay
    rw [positions_outside inside]
    simp only [calls, List.modifyHead_cons, List.mem_cons] at underWay ⊢
    obtain rfl | suspended := underWay
    · exact .inl rfl
    · exact .inr (.inr suspended)

/-- Each step without an instruction keeps the positions of functions that have begun. -/
theorem Step.positions_other (step : Step t .other t') {f : TracedCall} (underWay : f ∈ t'.positions) :
    f.started = false ∨ f.proto = none ∨ f ∈ t.positions := by
  cases step with
  | hookCalled allowed => exact .inr (.inr (by simpa [positions, inHook, allowed] using underWay))
  | hookReturned done => exact .inr (.inr (by simpa [positions, inHook, done] using underWay))
  | call =>
    obtain ⟨_, _, _, _, savedpc, calls, hooked⟩ := t
    cases hooked with
    | none => cases calls <;> (simp [positions, inHook, mapCall, push] at underWay ⊢; grind)
    | some under =>
      cases under with
      | nil => cases calls <;> simp_all [positions, inHook, mapCall, push]
      | cons => exact .inr (.inr (by simpa [positions, inHook, mapCall, push] using underWay))
  | tailcall runs =>
    obtain ⟨_, _, _, _, savedpc, calls, hooked⟩ := t
    cases hooked with
    | none =>
      cases calls with
      | nil => simp [positions, inHook, mapCall] at underWay
      | cons g rest =>
        simp [positions, inHook, mapCall] at underWay ⊢
        grind
    | some under =>
      cases under with
      | nil => exact absurd rfl runs
      | cons => exact .inr (.inr (by simpa [positions, inHook, mapCall] using underWay))
  | @ret caller runs returns =>
    rw [positions_restored (t := { t.pop with savedpc := caller.savedpc }) returns rfl] at underWay
    refine .inr (.inr ?_)
    cases inside : t.inHook with
    | true =>
      rw [positions_inHook inside]
      simpa [pop, inside] using underWay
    | false =>
      have below : f ∈ t.calls.tail := by simpa [pop, inside] using underWay
      cases calls : t.calls with
      | nil => simp [calls] at below
      | cons g rest => exact mem_positions calls (by simpa [calls] using below)
  | @raiseInHook dropped rest catcher drops under catches =>
    have inside : t.inHook = true := by simp [inHook, under, drops]
    rw [positions_restored (t := { t with hooked := some rest, savedpc := catcher.savedpc }) catches rfl] at underWay
    exact .inr (.inr (positions_inHook inside ▸ underWay))
  | @raise dropped rest catcher drops under =>
    have caught : f ∈ catcher :: rest := by simpa [positions, inHook] using underWay
    cases dropped with
    | nil => exact absurd rfl drops
    | cons g dropped =>
      exact .inr (.inr (mem_positions under (List.mem_append_right _ caught)))
  | @collectFails g rest pc under isC =>
    have caught : f ∈ { g with savedpc := pc } :: rest := by simpa [positions, inHook, under] using underWay
    rw [List.mem_cons] at caught
    obtain rfl | suspended := caught
    · exact .inr (.inl isC)
    · exact .inr (.inr (mem_positions under suspended))
  | loadFails innermost isC => exact .inr ((positions_savedpc innermost underWay).imp_left fun same => same.trans isC)

theorem mapCall_outside (outside : t.inHook = false) {f : TracedCall} {rest : List TracedCall} (calls : t.calls = f :: rest)
    (u : TracedCall → TracedCall) :
    (t.mapCall u).positions = { u f with savedpc := t.savedpc } :: rest ∧ (t.mapCall u).current = some (u f) := by
  have changed : t.mapCall u = { t with calls := u f :: rest } := by simp [mapCall, outside, calls]
  have stays : (t.mapCall u).inHook = false := by
    rw [changed]
    exact outside
  rw [positions_outside stays, current, stays, changed]
  exact ⟨rfl, rfl⟩

theorem mapCall_inHook (inside : t.inHook = true) (u : TracedCall → TracedCall) :
    (t.mapCall u).inHook = true ∧ (t.mapCall u).calls = t.calls := by
  obtain ⟨-, outside⟩ | ⟨-, outside⟩ | ⟨f, fs, hooked, -⟩ := hooked_cases t
  · exact absurd inside (by simp [outside])
  · exact absurd inside (by simp [outside])
  · constructor <;> simp [mapCall, hooked, inHook]

theorem fetch_calls (t : Tracing) (p : Proto) (npc : Nat) :
    (t.fetch p npc).1.calls = t.calls ∧ (t.fetch p npc).1.hooked = t.hooked := by
  unfold fetch
  split
  · dsimp only
    split <;> exact ⟨rfl, rfl⟩
  · exact ⟨rfl, rfl⟩

/-- An instruction moves the innermost function on, unless a hook has called it. -/
theorem Step.positions_fetch {b : Bool} {events : List TraceEvent} (line : t.hookmask.line = true)
    (step : Step t (.fetch p npc b events) t') :
    b = true ∧ t'.positions = t.positions ∨
      ∃ (f : TracedCall) (rest : List TracedCall), b = false ∧ t.calls = f :: rest ∧ f.proto = some p ∧
        (f.started = true ∨ npc = 0) ∧ t'.positions = { f.reported events with savedpc := npc + 1 } :: rest ∧
        t'.current = some (f.reported events) := by
  cases step with
  | fetch runs current isGafq first =>
    obtain ⟨calls, hooked⟩ := fetch_calls t p npc
    have saved (saves : Bool) : (if saves then npc + 1 else (t.fetch p npc).1.savedpc) = npc + 1 := by
      rw [fetch_lines line]
      simp [traceexec]
    rw [saved]
    cases inside : t.inHook with
    | true =>
      left
      have called := mapCall_inHook (t := { (t.fetch p npc).1 with savedpc := npc + 1 })
        (by simpa [inHook, hooked] using inside) fun f => f.reported (t.fetch p npc).2
      exact ⟨rfl, by rw [positions_inHook called.1, positions_inHook inside, called.2, calls]⟩
    | false =>
      right
      rw [Tracing.current, inside] at current
      obtain ⟨rest, under⟩ := List.head?_eq_some_iff.mp current
      have stays : Tracing.inHook { (t.fetch p npc).1 with savedpc := npc + 1 } = false := by
        simpa [inHook, hooked] using inside
      have moved := mapCall_outside stays (calls.trans under) fun f => f.reported (t.fetch p npc).2
      exact ⟨_, rest, rfl, under, isGafq, first, moved⟩

/-- The hook is told of each line on which an instruction is executed. -/
structure Reporting (t : Tracing) : Prop where
  hook : t.hook = true
  line : t.hookmask.line = true
  reported : ∀ f ∈ t.positions, f.Reported

/-- The line of an instruction is either that of the one executed before it or reported. -/
theorem Reporting.line_fetch (reporting : Reporting t) (outside : t.hooked.isNone = true) {f : TracedCall}
    (before : TracedCall.Reported { f with savedpc := t.savedpc }) (isGafq : f.proto = some p)
    (first : f.started = true ∨ npc = 0) : (f.reported (t.fetch p npc).2).line = some (getline p npc) := by
  have callsHook (e : TraceEvent) : callhook { t with hookcount := t.hookcount - 1 } e = [e] := by
    simp [callhook, reporting.hook, outside]
  have counted (c : Bool) : (if c then [TraceEvent.count] else []).foldl TraceEvent.report f.line = f.line := by
    cases c <;> rfl
  rw [fetch_lines reporting.line]
  simp only [TracedCall.reported, traceexec, reporting.line, Bool.true_and, List.foldl_append]
  simp only [callsHook, counted]
  split
  · rfl
  · next same =>
    simp only [Bool.or_eq_true, not_or, beq_iff_eq, decide_eq_true_eq, bne_iff_ne, ne_eq, not_not] at same
    obtain ⟨⟨inside, -⟩, line⟩ := same
    obtain ⟨-, last⟩ := before p isGafq (first.resolve_right inside)
    exact last.trans (congrArg some line.symm)

/-- A step goes on reporting the lines. -/
theorem Reporting.step {l : TraceLabel} (reporting : Reporting t) (step : Step t l t') : Reporting t' := by
  cases l with
  | other =>
    have same := step.same rfl
    refine ⟨same.hook.trans reporting.hook, same.hookmask ▸ reporting.line, fun f underWay => ?_⟩
    obtain begins | isC | before := step.positions_other underWay
    · intro p _ started
      rw [begins] at started
      cases started
    · intro p isGafq
      rw [isC] at isGafq
      cases isGafq
    · exact reporting.reported f before
  | fetch p npc b events =>
    obtain ⟨inHook, rfl, runs, same⟩ := step.of_fetch
    obtain ⟨hook, hookmask, -⟩ := fetch_settings t p npc
    refine ⟨(same.hook.trans hook).trans reporting.hook, (same.hookmask.trans hookmask) ▸ reporting.line,
      fun f underWay => ?_⟩
    obtain ⟨-, stay⟩ | ⟨g, rest, rfl, calls, isGafq, first, moved, -⟩ := step.positions_fetch reporting.line
    · exact reporting.reported f (stay ▸ underWay)
    · have outside : t.hooked.isNone = true := by rw [isNone_of_runs runs, ← inHook]; rfl
      have position : { g with savedpc := t.savedpc } :: rest = t.positions := by
        rw [positions_outside inHook.symm, calls]
        rfl
      have before (h : TracedCall) (suspended : h ∈ { g with savedpc := t.savedpc } :: rest) : h.Reported :=
        reporting.reported h (position ▸ suspended)
      rw [moved, List.mem_cons] at underWay
      obtain rfl | suspended := underWay
      · intro q gafq _
        obtain rfl : p = q := Option.some.inj (isGafq.symm.trans gafq)
        exact ⟨Nat.succ_le_succ npc.zero_le, reporting.line_fetch outside (before _ List.mem_cons_self) isGafq first⟩
      · exact before f (List.mem_cons_of_mem _ suspended)

theorem sethook_reporting {mask : HookMask} (line : mask.line = true) (count : Int)
    (unstarted : ∀ f ∈ t.calls, f.started = false) : Reporting (t.sethook true mask count) := by
  have on : mask ≠ ⟨false, false, false, false⟩ := by
    rintro rfl
    cases line
  rw [sethook_on on]
  refine ⟨rfl, line, fun f underWay p _ started => ?_⟩
  have begins : f.started = false := by
    change f ∈ t.positions at underWay
    cases inside : t.inHook with
    | true => exact unstarted f (positions_inHook inside ▸ underWay)
    | false =>
      rw [positions_outside inside] at underWay
      cases calls : t.calls with
      | nil => simp [calls] at underWay
      | cons g rest =>
        rw [calls, List.modifyHead_cons, List.mem_cons] at underWay
        obtain rfl | suspended := underWay
        · exact unstarted g (calls ▸ List.mem_cons_self)
        · exact unstarted f (calls ▸ List.mem_cons_of_mem _ suspended)
  rw [begins] at started
  cases started

/-- No instruction outside of a hook is executed on a line other than the one that the hook has been called with last
for the same call. -/
theorem lineHook_reports {t₁ t₂ : Tracing} {mask : HookMask} {count : Int} {ls : List TraceLabel}
    {events : List TraceEvent} (line : mask.line = true) (unstarted : ∀ f ∈ t.calls, f.started = false)
    (run : LabelledRun Step (t.sethook true mask count) ls t₁) (executes : Step t₁ (.fetch p npc false events) t₂) :
    ∃ f, t₂.current = some f ∧ f.proto = some p ∧ f.line = some (getline p npc) := by
  have reporting := run.invariant (fun _ _ _ step reporting => reporting.step step) (sethook_reporting line count unstarted)
  obtain ⟨inside, -⟩ | ⟨f, rest, -, -, isGafq, -, moved, current⟩ := executes.positions_fetch reporting.line
  · cases inside
  · have executed : TracedCall.Reported { f.reported events with savedpc := npc + 1 } :=
      (reporting.step executes).reported _ (moved ▸ List.mem_cons_self)
    exact ⟨f.reported events, current, isGafq, (executed p isGafq rfl).2⟩

/-- The second instruction on a line is not reported. -/
theorem lineHook_reports_oneLine :
    ∃ t₁ t₂, LabelledRun Step ((called oneLine).sethook true ⟨false, false, true, false⟩ 0)
        [.fetch oneLine 0 false [.line 7]] t₁ ∧
      Step t₁ (.fetch oneLine 1 false []) t₂ ∧
      ∃ f, t₂.current = some f ∧ f.proto = some oneLine ∧ f.line = some 7 := by
  obtain ⟨t₁, t₂, first, second⟩ : ∃ t₁ t₂,
      Step ((called oneLine).sethook true ⟨false, false, true, false⟩ 0) (.fetch oneLine 0 false [.line 7]) t₁ ∧
        Step t₁ (.fetch oneLine 1 false []) t₂ :=
    ⟨_, _, @Step.fetch _ ⟨some oneLine, 0, false, none⟩ oneLine 0 false (by intro h; cases h) rfl rfl (.inr rfl),
      @Step.fetch _ ⟨some oneLine, 0, true, some 7⟩ oneLine 1 false (by intro h; cases h) rfl rfl (.inl rfl)⟩
  have unstarted : ∀ f ∈ (called oneLine).calls, f.started = false := by simp [called]
  exact ⟨t₁, t₂, .single first, second, lineHook_reports rfl unstarted (.single first) second⟩

end Tracing

end Gafq
