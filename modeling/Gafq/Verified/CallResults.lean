import Gafq.Coroutine
import Gafq.Verified.StackRoom

/-! # Values that a call moves

What `gafqD_precall`, `gafqD_poscall`, `gafq_xmove` and `gafq_insert` do to the values on a stack and
to its frames.  Hooks run in the middle of a call and of a return; `QuietHooks` says that they leave
alone the values of the functions they interrupt, which a hook could overwrite with
`debug.setlocal`.
-/

namespace Gafq

variable {V : Type}

namespace Thread

/-! ## Lists of values -/

@[simp] theorem length_values (th : Thread V) (first n : Nat) : (th.values first n).length = n := by
  simp [values]

theorem getElem?_values (th : Thread V) (first n i : Nat) :
    (th.values first n)[i]? = if i < n then some (th.slots (first + i)) else none := by
  unfold values
  rw [List.getElem?_map]
  split
  · rename_i inside
    rw [List.getElem?_range inside]
    rfl
  · rename_i outside
    rw [List.getElem?_eq_none (by simpa using outside)]
    rfl

theorem values_congr {th th' : Thread V} {first first' n : Nat}
    (same : ∀ i, i < n → th'.slots (first' + i) = th.slots (first + i)) :
    th'.values first' n = th.values first n := by
  unfold values
  exact List.map_congr_left fun i member => same i (List.mem_range.mp member)

/-- The values `args`, cut or completed with `nil` to the number that a call wants; a negative
number wants all of them. -/
def adjust (nil : V) (wanted : Int) (args : List V) : List V :=
  if wanted < 0 then args
  else args.take wanted.toNat ++ List.replicate (wanted.toNat - args.length) nil

/-- The results that `gafqD_poscall` leaves from `res` on. -/
theorem moveResults_values (env : CallEnv V) (th : Thread V) (res first : Nat) (wanted : Int) :
    (moveResults env th res first wanted).values res
        (if wanted < 0 then (moveResults env th res first wanted).top - res else wanted.toNat) =
      adjust env.nil wanted (th.values first (th.top - first)) := by
  by_cases all : wanted < 0
  · have top : (moveResults env th res first wanted).top - res = th.top - first := by
      simp [moveResults, all]
    rw [if_pos all, adjust, if_pos all, top]
    refine values_congr fun i inside => ?_
    simp only [moveResults, all, if_true]
    rw [if_pos (by omega)]
    congr 1
    omega
  · rw [if_neg all, adjust, if_neg all]
    refine List.ext_getElem? fun i => ?_
    rw [getElem?_values, List.getElem?_append, List.getElem?_take, List.length_take, length_values,
      getElem?_values, List.getElem?_replicate]
    simp only [moveResults, all, if_false]
    by_cases moved : i < min (th.top - first) wanted.toNat
    · rw [if_pos (by omega), if_pos (by omega), if_pos (by omega), if_pos (by omega), if_pos (by omega)]
      congr 2
      omega
    · by_cases padded : i < wanted.toNat
      · rw [if_pos padded, if_neg (by omega), if_pos (by omega), if_neg (by omega), if_pos (by omega)]
      · rw [if_neg padded, if_neg (by omega), if_neg (by omega)]

/-- Below the first result nothing moves. -/
theorem moveResults_below (env : CallEnv V) (th : Thread V) {res first : Nat} (wanted : Int) {i : Nat}
    (below : i < res) : (moveResults env th res first wanted).slots i = th.slots i := by
  simp only [moveResults]
  rw [if_neg (by omega), if_neg (by omega)]

/-- The values that `gafq_xmove` brings are on top, in their order. -/
theorem xmoveTo_topValues (target source : Thread V) {n : Nat} :
    (target.xmoveTo source n).topValues n = source.topValues n := by
  refine values_congr fun i inside => ?_
  have top : (target.xmoveTo source n).top = target.top + n := rfl
  rw [top]
  simp only [xmoveTo]
  rw [if_pos (by omega)]
  congr 1
  omega

theorem xmoveTo_below (target source : Thread V) {n i : Nat} (below : i < target.top) :
    (target.xmoveTo source n).slots i = target.slots i := by
  simp only [xmoveTo]
  rw [if_neg (by omega)]

/-- `gafq_insert` puts the value on top below the others. -/
theorem push_insert_topValues (th : Thread V) (v : V) {n : Nat} (available : n ≤ th.top) :
    ((th.push v).insert (n + 1)).topValues (n + 1) = v :: th.topValues n := by
  refine List.ext_getElem? fun i => ?_
  have top : ((th.push v).insert (n + 1)).top = th.top + 1 := rfl
  rw [topValues, getElem?_values, top]
  cases i with
  | zero => simp [insert, push, store]
  | succ i =>
    rw [List.getElem?_cons_succ, topValues, getElem?_values]
    by_cases inside : i < n
    · rw [if_pos (by omega), if_pos inside]
      have same : th.top + 1 - (n + 1) + (i + 1) - 1 = th.top - n + i := by omega
      show some (if th.top + 1 - (n + 1) + (i + 1) = th.top + 1 - (n + 1) then _
        else if th.top + 1 - (n + 1) < th.top + 1 - (n + 1) + (i + 1) ∧
            th.top + 1 - (n + 1) + (i + 1) < th.top + 1 then
          Function.update th.slots th.top v (th.top + 1 - (n + 1) + (i + 1) - 1)
        else _) = _
      rw [if_neg (by omega), if_pos (by omega), same, Function.update_of_ne (by omega)]
    · rw [if_neg (by omega), if_neg inside]

/-! ## Hooks -/

/-- Hooks write only above the values of the function that they interrupt. -/
def QuietHooks (env : CallEnv V) : Prop :=
  ∀ e (th : Thread V) es, env.hook e th = some es → ∀ i v, StackEvent.store i v ∈ es → th.top ≤ i

@[simp] theorem checkstack_slots (th : Thread V) (n : Nat) : (th.checkstack n).slots = th.slots := by
  unfold checkstack growstack
  split
  · split <;> rfl
  · rfl

@[simp] theorem checkstack_base (th : Thread V) (n : Nat) : (th.checkstack n).base = th.base := by
  unfold checkstack growstack
  split
  · split <;> rfl
  · rfl

theorem checkstacksizes_slots (th : Thread V) (limit : Nat) : (th.checkstacksizes limit).slots = th.slots := by
  simp only [checkstacksizes]
  split
  · rfl
  · split <;> split <;> rfl

theorem events_slots {th : Thread V} {es : List (StackEvent V)} {bound i : Nat} (below : i < bound)
    (stores : ∀ j v, StackEvent.store j v ∈ es → bound ≤ j) : (th.events es).slots i = th.slots i := by
  induction es generalizing th with
  | nil => rfl
  | cons e es inductionHypothesis =>
    have rest := @inductionHypothesis (th.event e) fun j v member => stores j v (List.mem_cons_of_mem _ member)
    have first : (th.event e).slots i = th.slots i := by
      cases e with
      | check above n => simp [event]
      | collect above => simp [event, checkstacksizes_slots]
      | store j v =>
        have high := stores j v (List.mem_cons_self ..)
        simp only [event, store]
        rw [Function.update_of_ne (by omega)]
      | sethook hook maskCall maskRet => rfl
    exact rest.trans first

/-- A hook gives the frames and the top back. -/
theorem callhook_frames {env : CallEnv V} {e : HookEvent} {th th' : Thread V}
    (ran : callhook env e th = .ok th') : th'.top = th.top ∧ th'.ci = th.ci := by
  unfold callhook at ran
  split at ran
  · split at ran
    · cases ran
    · rename_i es _
      cases ran
      have kept := events_keeps th.openHook es
      refine ⟨rfl, ?_⟩
      have opened : th.openHook.ci = th.ci.modifyHead fun ci => { ci with top := th.openHook.top + minStack } := by
        simp [openHook, updateCI]
      simp only [closeHook, updateCI, kept.ci, opened]
      cases th.ci with
      | nil => rfl
      | cons ci rest => rfl
  · cases ran
    exact ⟨rfl, rfl⟩

theorem callhook_slots {env : CallEnv V} {e : HookEvent} {th th' : Thread V} (quiet : QuietHooks env)
    (ran : callhook env e th = .ok th') {i : Nat} (below : i < th.top) : th'.slots i = th.slots i := by
  unfold callhook at ran
  split at ran
  · split at ran
    · cases ran
    · rename_i es hooked
      cases ran
      have opened : th.openHook.top = th.top := by simp [openHook, updateCI]
      have kept : (th.openHook.events es).slots i = th.openHook.slots i :=
        events_slots (opened ▸ below) (quiet e _ es hooked)
      have same : th.openHook.slots i = th.slots i := by simp [openHook, updateCI]
      exact kept.trans same
  · cases ran
    rfl

/-- What the return hooks leave of a thread. -/
structure Hooked (quiet : Prop) (th th' : Thread V) : Prop where
  top : th'.top = th.top
  tail : th'.ci.tail = th.ci.tail
  func : (th'.ci.headD {}).func = (th.ci.headD {}).func
  nresults : (th'.ci.headD {}).nresults = (th.ci.headD {}).nresults
  length : th'.ci.length = th.ci.length
  slots : quiet → ∀ i, i < th.top → th'.slots i = th.slots i

theorem Hooked.refl {quiet : Prop} (th : Thread V) : Hooked quiet th th :=
  ⟨rfl, rfl, rfl, rfl, rfl, fun _ _ _ => rfl⟩

theorem Hooked.trans {quiet : Prop} {th th' th'' : Thread V} (first : Hooked quiet th th')
    (second : Hooked quiet th' th'') : Hooked quiet th th'' where
  top := second.top.trans first.top
  tail := second.tail.trans first.tail
  func := second.func.trans first.func
  nresults := second.nresults.trans first.nresults
  length := second.length.trans first.length
  slots hooks i below := (second.slots hooks i (first.top ▸ below)).trans (first.slots hooks i below)

theorem callhook_hooked {env : CallEnv V} {e : HookEvent} {th th' : Thread V}
    (ran : callhook env e th = .ok th') : Hooked (QuietHooks env) th th' := by
  obtain ⟨top, ci⟩ := callhook_frames ran
  exact ⟨top, by rw [ci], by rw [ci], by rw [ci], by rw [ci], fun quiet _ below => callhook_slots quiet ran below⟩

theorem callTailHooks_hooked {env : CallEnv V} (n : Nat) {th th' : Thread V}
    (ran : callTailHooks env th n = .ok th') : Hooked (QuietHooks env) th th' := by
  induction n generalizing th with
  | zero =>
    cases ran
    exact .refl _
  | succ n inductionHypothesis =>
    simp only [callTailHooks] at ran
    split at ran
    · -- the hook runs with one tail call less in the frame
      have lowered : Hooked (QuietHooks env) th (th.updateCI fun ci => { ci with tailcalls := ci.tailcalls - 1 }) := by
        cases frames : th.ci <;> exact ⟨rfl, by simp [updateCI, frames], by simp [updateCI, frames],
          by simp [updateCI, frames], by simp [updateCI, frames], fun _ _ _ => rfl⟩
      cases called : callhook env .tailret (th.updateCI fun ci => { ci with tailcalls := ci.tailcalls - 1 }) with
      | error e => simp [called, bind, Except.bind] at ran
      | ok hooked =>
        simp only [called, bind, Except.bind] at ran
        exact (lowered.trans (callhook_hooked called)).trans (inductionHypothesis ran)
    · cases ran
      exact .refl _

theorem callrethooks_hooked {env : CallEnv V} {th th' : Thread V} (ran : callrethooks env th = .ok th') :
    Hooked (QuietHooks env) th th' := by
  simp only [callrethooks, bind, Except.bind] at ran
  cases called : callhook env .ret th with
  | error e => simp [called] at ran
  | ok hooked =>
    simp only [called] at ran
    split at ran
    · exact (callhook_hooked called).trans (callTailHooks_hooked _ ran)
    · cases ran
      exact callhook_hooked called

/-! ## Returning from a call, and entering one -/

theorem pushNils_ci (env : CallEnv V) (th : Thread V) (n : Nat) : (pushNils env th n).ci = th.ci := by
  induction n generalizing th with
  | zero => rfl
  | succ n inductionHypothesis => exact inductionHypothesis (th.push env.nil)

theorem moveFixed_ci (env : CallEnv V) (th : Thread V) (source n : Nat) :
    (moveFixed env th source n).ci = th.ci := by
  induction n generalizing th source with
  | zero => rfl
  | succ n inductionHypothesis => exact inductionHypothesis _ (source + 1)

theorem adjustVarargs_ci (env : CallEnv V) (th : Thread V) (p : Proto) (actual : Nat) :
    (adjustVarargs env th p actual).1.ci = th.ci := by
  simp only [adjustVarargs]
  split
  · show (moveFixed _ _ _ _).ci = _
    rw [moveFixed_ci, checkstack_ci, (events_keeps _ _).ci, pushNils_ci]
  · rw [moveFixed_ci, pushNils_ci]

/-- `gafqD_poscall`: the frame is left and the results go where the function was. -/
theorem poscall_spec {env : CallEnv V} {th th' : Thread V} {first : Nat} {more : Int} {call : CallInfo}
    {rest : List CallInfo} (frames : th.ci = call :: rest) (ran : poscall env th first = .ok (th', more)) :
    ∃ hooked : Thread V, Hooked (QuietHooks env) th hooked ∧ more = call.nresults + 1 ∧
      th' = moveResults env { hooked with ci := rest, base := (rest.headD {}).base, savedpc := (rest.headD {}).savedpc }
        call.func first call.nresults := by
  obtain ⟨hooked, kept, left⟩ : ∃ hooked, Hooked (QuietHooks env) th hooked ∧
      Except.ok (th', more) = (Except.ok (moveResults env
        { hooked with
          ci := hooked.ci.tail, base := (hooked.ci.tail.headD {}).base, savedpc := (hooked.ci.tail.headD {}).savedpc }
        (hooked.ci.headD {}).func first (hooked.ci.headD {}).nresults, (hooked.ci.headD {}).nresults + 1) :
          Except CallError _) := by
    by_cases masked : th.maskRet = true
    · simp only [poscall, masked, if_true, bind, Except.bind] at ran
      cases returned : callrethooks env th with
      | error e => simp [returned] at ran
      | ok hooked =>
        simp only [returned] at ran
        exact ⟨hooked, callrethooks_hooked returned, ran.symm⟩
    · simp only [poscall, bind, Except.bind] at ran
      rw [if_neg masked] at ran
      exact ⟨th, .refl th, ran.symm⟩
  have tail := kept.tail
  have func := kept.func
  have nresults := kept.nresults
  rw [frames] at tail func nresults
  simp only [List.tail_cons, List.headD_cons] at tail func nresults
  cases left
  exact ⟨hooked, kept, by rw [nresults], by rw [func, nresults]; simp only [tail]⟩

theorem enterGafq_frames {env : CallEnv V} {th entered : Thread V} {func : Nat} {p : Proto}
    (enters : enterGafq env th func p = .ok entered) :
    ∃ call, entered.ci = call :: th.ci ∧ call.func = func := by
  -- the frame is opened on a thread that differs from `th` in its stack only
  have opened : ∀ (u : Thread V) (base : Nat), u.ci = th.ci →
      (do
        let v ← u.incCI
        .ok ({ v with base }.updateCI fun ci =>
          { ci with func, base, top := base + p.maxstacksize.toNat, isGafq := true })) = .ok entered →
      ∃ call, entered.ci = call :: th.ci ∧ call.func = func := by
    intro u base same enters
    cases stepped : u.incCI with
    | error e => rw [stepped] at enters; cases enters
    | ok v =>
      rw [stepped] at enters
      cases enters
      have ci := (incCI_spec stepped).1
      exact ⟨_, by simp [updateCI, ci, same]; rfl, rfl⟩
  unfold enterGafq at enters
  by_cases plain : p.isVararg = 0
  · simp only [plain, if_true] at enters
    refine opened _ _ ?_ enters
    split <;> simp
  · simp only [plain, if_false] at enters
    refine opened _ _ ?_ enters
    rw [adjustVarargs_ci]
    simp

/-- A call that starts a Gafq function opens one frame, for the function called. -/
theorem precall_frames {env : CallEnv V} {th th' : Thread V} {func : Nat} {nresults : Int} {p : Proto}
    (closure : env.function? (th.slots func) = some (.gafq p))
    (ran : precall env th func nresults = .ok (.gafq, th')) :
    ∃ call, th'.ci = call :: th.ci.modifyHead (fun ci => { ci with savedpc := th.savedpc }) ∧
      call.func = func ∧ call.nresults = nresults := by
  simp only [precall, closure, Option.isNone_some, Bool.false_eq_true, if_false, bind, Except.bind] at ran
  cases enters : enterGafq env (th.updateCI fun ci => { ci with savedpc := th.savedpc }) func p with
  | error e => simp [enters] at ran
  | ok entered =>
    simp only [enters] at ran
    cases starts : startGafq env entered nresults with
    | error e => simp [starts] at ran
    | ok started =>
      simp only [starts] at ran
      cases ran
      obtain ⟨call, frames, func⟩ := enterGafq_frames enters
      have prepared : (prepareGafq env entered nresults).ci =
          { call with tailcalls := 0, nresults } :: (th.updateCI fun ci => { ci with savedpc := th.savedpc }).ci := by
        simp [prepareGafq, clearUpTo, updateCI, frames]
      refine ⟨{ call with tailcalls := 0, nresults }, ?_, func, rfl⟩
      simp only [startGafq] at starts
      split at starts
      · cases hooked : callhook env .call { prepareGafq env entered nresults with
          savedpc := (prepareGafq env entered nresults).savedpc + 1 } with
        | error e => rw [hooked] at starts; cases starts
        | ok after =>
          rw [hooked] at starts
          cases starts
          exact ((callhook_frames hooked).2).trans prepared
      · cases starts
        exact prepared

end Thread

end Gafq
