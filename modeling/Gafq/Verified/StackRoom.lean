import Gafq.Do

/-! # Room for the frame of a called function

`gafqD_precall` reserves `maxstacksize` slots above `L->top` and only then lets `adjust_varargs`
complete the missing parameters and move the frame behind them.  The frame stays below
`stack_last` exactly when the reserve also covers that completion; old-style vararg functions
reserve once more behind it.
-/

namespace Gafq

namespace Thread

variable {V : Type} {env : CallEnv V}

/-! ## Reserving stack space -/

/-- The last free slot after a reserve of `n` slots. -/
def reservedLast (th : Thread V) (n : Nat) : Nat :=
  if n < th.stackLast - th.top then th.stackLast
  else if n ≤ th.stacksize then 2 * th.stacksize else th.stacksize + n

@[simp] theorem growstack_top (th : Thread V) (n : Nat) : (th.growstack n).top = th.top := by
  unfold growstack; split <;> rfl

@[simp] theorem growstack_ci (th : Thread V) (n : Nat) : (th.growstack n).ci = th.ci := by
  unfold growstack; split <;> rfl

@[simp] theorem checkstack_top (th : Thread V) (n : Nat) : (th.checkstack n).top = th.top := by
  unfold checkstack; split <;> simp

@[simp] theorem checkstack_ci (th : Thread V) (n : Nat) : (th.checkstack n).ci = th.ci := by
  unfold checkstack; split <;> simp

theorem growstack_stackLast (th : Thread V) (n : Nat) :
    (th.growstack n).stackLast = if n ≤ th.stacksize then 2 * th.stacksize else th.stacksize + n := by
  unfold growstack; split <;> rfl

theorem checkstack_stackLast {th : Thread V} (inside : th.top ≤ th.stackLast) (n : Nat) :
    (th.checkstack n).stackLast = th.reservedLast n := by
  unfold checkstack reservedLast
  by_cases room : n < th.stackLast - th.top
  · rw [if_neg (by omega), if_pos room]
  · rw [if_pos (by omega), if_neg room, growstack_stackLast]

theorem le_reservedLast {th : Thread V} (inside : th.top ≤ th.stackLast) (n : Nat) :
    th.top + n ≤ th.reservedLast n := by
  have := th.stackLast_eq
  unfold reservedLast
  split
  · omega
  · split <;> omega

theorem stackLast_le_checkstack (th : Thread V) (n : Nat) : th.stackLast ≤ (th.checkstack n).stackLast := by
  have := th.stackLast_eq
  unfold checkstack
  split
  · rw [growstack_stackLast]
    split <;> omega
  · exact le_refl _

/-! ## What runs on top of a frame -/

theorem le_stackLimit (th : Thread V) : th.top ≤ th.stackLimit ∧ ∀ ci ∈ th.ci, ci.top ≤ th.stackLimit := by
  unfold stackLimit
  induction th.ci with
  | nil => simp
  | cons ci rest inductionHypothesis =>
    simp only [List.foldr_cons, List.mem_cons, forall_eq_or_imp]
    refine ⟨by omega, by omega, fun other member => ?_⟩
    have := inductionHypothesis.2 other member
    omega

theorem checkstacksizes_spec (th : Thread V) (limit : Nat) :
    (th.checkstacksizes limit).top = th.top ∧ (th.checkstacksizes limit).ci = th.ci ∧
      (th.stackLast ≤ (th.checkstacksizes limit).stackLast ∨ limit ≤ (th.checkstacksizes limit).stackLast) := by
  have halved : ∀ u : Thread V, u.top = th.top → u.ci = th.ci → u.stackLast = th.stackLast →
      let v := if 4 * limit < u.stacksize ∧ 2 * (basicStackSize + extraStack) < u.stacksize
        then u.reallocstack (u.stacksize / 2) else u
      v.top = th.top ∧ v.ci = th.ci ∧ (th.stackLast ≤ v.stackLast ∨ limit ≤ v.stackLast) := by
    intro u sameTop sameCI sameLast
    simp only
    split
    · refine ⟨sameTop, sameCI, .inr ?_⟩
      simp only [reallocstack]
      omega
    · exact ⟨sameTop, sameCI, .inl sameLast.ge⟩
  unfold checkstacksizes
  split
  · exact ⟨rfl, rfl, .inl (le_refl _)⟩
  · apply halved <;> split <;> rfl

/-- What runs on top of a frame gives `L->top` and the frames back, and leaves inside the stack
every position in use that was inside it. -/
structure Keeps (th th' : Thread V) : Prop where
  top : th'.top = th.top
  ci : th'.ci = th.ci
  inside : ∀ n, n ≤ th.stackLimit → n ≤ th.stackLast → n ≤ th'.stackLast

theorem Keeps.trans {th th' th'' : Thread V} (first : Keeps th th') (second : Keeps th' th'') : Keeps th th'' where
  top := second.top.trans first.top
  ci := second.ci.trans first.ci
  inside n used inside := by
    apply second.inside n
    · unfold stackLimit at used ⊢
      rwa [first.top, first.ci]
    · exact first.inside n used inside

theorem event_keeps (th : Thread V) (e : StackEvent V) : Keeps th (th.event e) := by
  cases e with
  | check above n =>
    have grown := stackLast_le_checkstack { th with top := th.top + above } n
    exact ⟨rfl, by simp [event], fun _ _ inside => inside.trans grown⟩
  | collect above =>
    obtain ⟨top, ci, last⟩ := checkstacksizes_spec th (th.stackLimit + above)
    refine ⟨top, ci, fun n used inside => ?_⟩
    cases last with
    | inl grown => exact inside.trans grown
    | inr limited => exact (used.trans (Nat.le_add_right ..)).trans limited
  | store i v => exact ⟨rfl, rfl, fun _ _ inside => inside⟩
  | sethook hook maskCall maskRet => exact ⟨rfl, rfl, fun _ _ inside => inside⟩

theorem events_keeps (th : Thread V) (es : List (StackEvent V)) : Keeps th (th.events es) := by
  induction es generalizing th with
  | nil => exact ⟨rfl, rfl, fun _ _ inside => inside⟩
  | cons e es inductionHypothesis => exact (event_keeps th e).trans (inductionHypothesis (th.event e))

/-! ## Moving the frame -/

theorem pushNils_spec (th : Thread V) (n : Nat) :
    (pushNils env th n).top = th.top + n ∧ (pushNils env th n).stackLast = th.stackLast := by
  induction n generalizing th with
  | zero => exact ⟨rfl, rfl⟩
  | succ n inductionHypothesis =>
    obtain ⟨top, last⟩ := inductionHypothesis (th.push env.nil)
    refine ⟨?_, last⟩
    rw [pushNils, top]
    simp only [push]
    omega

theorem moveFixed_stackLast (th : Thread V) (source n : Nat) :
    (moveFixed env th source n).stackLast = th.stackLast := by
  induction n generalizing th source with
  | zero => rfl
  | succ n inductionHypothesis => rw [moveFixed, inductionHypothesis]; rfl

/-- The frame of a vararg function starts behind the completed arguments.  An old-style one has
its registers reserved there; for the others the stack is as it was. -/
theorem adjustVarargs_spec {th : Thread V} {p : Proto} {actual : Nat}
    (room : th.top + (p.numparams.toNat - actual) ≤ th.stackLast) :
    (adjustVarargs env th p actual).2 = th.top + (p.numparams.toNat - actual) ∧
    (if p.varargFlag varargNeedsArg then
      (adjustVarargs env th p actual).2 + p.maxstacksize.toNat ≤ (adjustVarargs env th p actual).1.stackLast
    else (adjustVarargs env th p actual).1.stackLast = th.stackLast) := by
  obtain ⟨top, last⟩ := @pushNils_spec V env th (p.numparams.toNat - actual)
  cases needsArg : p.varargFlag varargNeedsArg with
  | false =>
    simp only [adjustVarargs, needsArg, Bool.false_eq_true, if_false, moveFixed_stackLast]
    exact ⟨top, last⟩
  | true =>
    have kept := events_keeps (pushNils env th (p.numparams.toNat - actual))
      (env.collector (pushNils env th (p.numparams.toNat - actual)))
    have inside := kept.inside _ (le_stackLimit _).1 (by omega)
    rw [← kept.top] at inside
    simp only [adjustVarargs, needsArg, if_true, checkstack_top, kept.top]
    refine ⟨top, ?_⟩
    have reserved := le_reservedLast inside p.maxstacksize.toNat
    rw [← checkstack_stackLast inside, kept.top] at reserved
    simp only [push, store, moveFixed_stackLast]
    exact reserved

/-! ## The new frame -/

/-- The current frame lies inside the stack. -/
def FrameInside (th : Thread V) : Prop :=
  ∃ ci ∈ th.ci.head?, ci.base ≤ ci.top ∧ ci.top ≤ th.stackLast

/-- The reserve of `maxstacksize` slots covers the missing parameters too, or is made again. -/
def VarargRoom (th : Thread V) (func : Nat) (p : Proto) : Prop :=
  p.isVararg = 0 ∨ p.varargFlag varargNeedsArg = true ∨
    th.top + (p.numparams.toNat - (th.top - func - 1)) + p.maxstacksize.toNat ≤
      th.reservedLast p.maxstacksize.toNat

instance (th : Thread V) (func : Nat) (p : Proto) : Decidable (VarargRoom th func p) := by
  unfold VarargRoom; infer_instance

theorem growCI_spec {th th' : Thread V} (grown : th.growCI = .ok th') :
    th'.ci = th.ci ∧ th'.stackLast = th.stackLast := by
  simp only [growCI] at grown
  split at grown
  · cases grown
  · split at grown
    · cases grown
    · cases grown
      exact ⟨rfl, rfl⟩

theorem incCI_spec {th th' : Thread V} (entered : th.incCI = .ok th') :
    th'.ci = {} :: th.ci ∧ th'.stackLast = th.stackLast := by
  simp only [incCI] at entered
  split at entered
  · cases grown : th.growCI with
    | error e => rw [grown] at entered; cases entered
    | ok u =>
      rw [grown] at entered
      cases entered
      obtain ⟨ci, last⟩ := growCI_spec grown
      exact ⟨congrArg ({} :: ·) ci, last⟩
  · cases entered
    exact ⟨rfl, rfl⟩

/-- At the assertion in `gafqD_precall` the new frame is inside the stack when the reserve was
large enough, and only then. -/
theorem enterGafq_frameInside_iff {th entered : Thread V} {func : Nat} {p : Proto}
    (params : p.numparams.toNat ≤ p.maxstacksize.toNat) (inside : th.top ≤ th.stackLast) (args : func < th.top)
    (enters : enterGafq env th func p = .ok entered) : FrameInside entered ↔ VarargRoom th func p := by
  have reserved := checkstack_stackLast inside p.maxstacksize.toNat
  have large := le_reservedLast inside p.maxstacksize.toNat
  -- the base of the frame and the end of the stack decide
  have decided : ∀ (u : Thread V) (base : Nat),
      (do
        let v ← u.incCI
        .ok ({ v with base }.updateCI fun ci =>
          { ci with func, base, top := base + p.maxstacksize.toNat, isGafq := true })) = .ok entered →
      (FrameInside entered ↔ base + p.maxstacksize.toNat ≤ u.stackLast) := by
    intro u base enters
    cases stepped : u.incCI with
    | error e => rw [stepped] at enters; cases enters
    | ok v =>
      rw [stepped] at enters
      cases enters
      obtain ⟨ci, last⟩ := incCI_spec stepped
      simp [FrameInside, updateCI, ci, last]
  unfold enterGafq at enters
  by_cases plain : p.isVararg = 0
  · simp only [plain, if_true] at enters
    rw [decided _ _ enters]
    refine iff_of_true ?_ (.inl plain)
    split <;> simp only [reserved] <;> omega
  · simp only [plain, if_false] at enters
    rw [decided _ _ enters, checkstack_top]
    obtain ⟨base, last⟩ := @adjustVarargs_spec V env (th.checkstack p.maxstacksize.toNat) p (th.top - func - 1)
      (by rw [checkstack_top, reserved]; omega)
    rw [checkstack_top] at base
    cases needsArg : p.varargFlag varargNeedsArg with
    | true =>
      rw [needsArg, if_pos rfl] at last
      exact iff_of_true last (.inr (.inl needsArg))
    | false =>
      rw [needsArg, if_neg (by decide)] at last
      rw [base, last, reserved, VarargRoom, needsArg]
      simp [plain]

theorem FrameInside.frames {th : Thread V} (inside : FrameInside th) :
    ∃ ci rest, th.ci = ci :: rest ∧ ci.base ≤ ci.top ∧ ci.top ≤ th.stackLast := by
  obtain ⟨ci, member, ordered, last⟩ := inside
  cases frames : th.ci with
  | nil => rw [frames] at member; cases member
  | cons c rest =>
    rw [frames] at member
    cases member
    exact ⟨ci, rest, rfl, ordered, last⟩

theorem callhook_frameInside {th th' : Thread V} {e : HookEvent} (ran : callhook env e th = .ok th')
    (atEnd : ∀ ci ∈ th.ci.head?, th.top = ci.top) (inside : FrameInside th) : FrameInside th' := by
  obtain ⟨ci, rest, frames, ordered, last⟩ := inside.frames
  have top : th.top = ci.top := atEnd ci (by rw [frames]; rfl)
  unfold callhook at ran
  split at ran
  · split at ran
    · cases ran
    · rename_i es _
      cases ran
      have kept := events_keeps th.openHook es
      have opened : th.openHook.ci = { ci with top := th.top + minStack } :: rest := by
        simp [openHook, updateCI, frames]
      -- `L->top` stands at the end of the frame while the hook runs
      have used : ci.top ≤ th.openHook.stackLimit := by
        have limit := (le_stackLimit th.openHook).1
        simp only [openHook, updateCI, checkstack_top] at limit ⊢
        omega
      have stillInside := kept.inside ci.top used (last.trans (stackLast_le_checkstack th minStack))
      refine ⟨{ ci with top := ci.top }, ?_, ordered, stillInside⟩
      simp [closeHook, updateCI, kept.ci, opened, frames]
  · cases ran
    exact ⟨ci, by rw [frames]; rfl, ordered, last⟩

theorem prepareGafq_frameInside {th : Thread V} (nresults : Int) (inside : FrameInside th) :
    FrameInside (prepareGafq env th nresults) ∧
      ∀ ci ∈ (prepareGafq env th nresults).ci.head?, (prepareGafq env th nresults).top = ci.top := by
  obtain ⟨ci, rest, frames, ordered, last⟩ := inside.frames
  have prepared : (prepareGafq env th nresults).ci = { ci with tailcalls := 0, nresults } :: rest := by
    simp [prepareGafq, updateCI, clearUpTo, frames]
  have top : (prepareGafq env th nresults).top = ci.top := by
    simp [prepareGafq, updateCI, frames]
  rw [FrameInside, prepared, top]
  refine ⟨⟨_, rfl, ordered, last⟩, ?_⟩
  rintro _ ⟨⟩
  rfl

theorem startGafq_frameInside {th th' : Thread V} {nresults : Int} (ran : startGafq env th nresults = .ok th')
    (inside : FrameInside th) : FrameInside th' := by
  obtain ⟨prepared, atEnd⟩ := @prepareGafq_frameInside V env th nresults inside
  simp only [startGafq] at ran
  split at ran
  · cases called : callhook env .call { prepareGafq env th nresults with
      savedpc := (prepareGafq env th nresults).savedpc + 1 } with
    | error e => rw [called] at ran; cases ran
    | ok hooked =>
      rw [called] at ran
      cases ran
      have hookedInside : FrameInside hooked := callhook_frameInside called atEnd prepared
      exact hookedInside
  · cases ran
    exact prepared

/-- Whenever `gafqD_precall` starts a Gafq function, the new frame is inside the stack, both where
the code asserts it and on return, exactly when the reserve covered the completed parameters. -/
theorem precall_frameInside_iff {th th' : Thread V} {func : Nat} {nresults : Int} {p : Proto}
    (closure : env.function? (th.slots func) = some (.gafq p))
    (params : p.numparams.toNat ≤ p.maxstacksize.toNat)
    (inside : th.top ≤ th.stackLast) (args : func < th.top)
    (returns : precall env th func nresults = .ok (.gafq, th')) :
    ∃ entered, enterGafq env (th.updateCI fun ci => { ci with savedpc := th.savedpc }) func p = .ok entered ∧
      startGafq env entered nresults = .ok th' ∧
      (FrameInside entered ∧ FrameInside th' ↔ VarargRoom th func p) := by
  simp only [precall, closure, Option.isNone_some, Bool.false_eq_true, if_false, bind, Except.bind] at returns
  cases enters : enterGafq env (th.updateCI fun ci => { ci with savedpc := th.savedpc }) func p with
  | error e =>
    rw [enters] at returns
    cases returns
  | ok entered =>
    rw [enters] at returns
    cases starts : startGafq env entered nresults with
    | error e =>
      simp only [starts] at returns
      cases returns
    | ok started =>
      simp only [starts] at returns
      cases returns
      have decided : FrameInside entered ↔ VarargRoom th func p :=
        @enterGafq_frameInside_iff V env (th.updateCI _) entered func p params inside args enters
      refine ⟨entered, rfl, starts, ?_⟩
      rw [decided]
      exact ⟨And.left, fun room => ⟨room, startGafq_frameInside starts (decided.2 room)⟩⟩

/-- Values that are prototypes or nothing, with no hook and an idle collector. -/
def plainEnv : CallEnv (Option Proto) where
  nil := none
  function? v := v.map Callee.gafq
  callTM _ := none
  argTable _ := none
  hook _ _ := none
  collector _ := []
  callC _ _ := none

/-- A new thread about to call `f`, pushed last, without arguments, at position `func`. -/
def callingThread (f : Proto) (func : Nat) : Thread (Option Proto) where
  slots i := if i = func then some f else none
  stacksize := basicStackSize + extraStack
  stackLast := basicStackSize - 1
  top := func + 1
  base := 1
  savedpc := 0
  ci := [{ base := 1, top := 1 + minStack }]
  sizeCI := basicCISize
  hook := false
  allowhook := true
  maskCall := false
  maskRet := false
  stackLast_eq := by decide

/-- `function (a1, ..., a20, ...)` with 21 registers. -/
def twentyParams : Proto :=
  { (default : Proto) with
    code := [createABC OpCode.return.toNat 0 1 0]
    numparams := 20
    isVararg := 3
    maxstacksize := 21 }

/-- The same with two parameters. -/
def twoParams : Proto := { twentyParams with numparams := 2 }

/-- Near the bottom of the stack the completed parameters fit behind the arguments. -/
theorem precall_frameInside_twoParams :
    ∃ th', precall plainEnv (callingThread twoParams 1) 1 0 = .ok (.gafq, th') ∧ FrameInside th' := by
  obtain ⟨_, -, -, decided⟩ := @precall_frameInside_iff _ plainEnv (callingThread twoParams 1) _ 1 0 twoParams
    rfl (by decide) (by decide) (by decide) rfl
  exact ⟨_, rfl, (decided.2 (by decide)).2⟩

/-- With 22 free slots the reserve of 21 does not grow the stack, and the frame ends at slot 58 of
a stack whose last free slot is 39. -/
theorem precall_frame_outside :
    ∃ th', precall plainEnv (callingThread twentyParams 16) 16 0 = .ok (.gafq, th') ∧
      (callingThread twentyParams 16).top ≤ (callingThread twentyParams 16).stackLast ∧
      twentyParams.numparams ≤ twentyParams.maxstacksize ∧ twentyParams.maxstacksize.toNat ≤ maxStack ∧
      ¬ FrameInside th' := by
  refine ⟨_, rfl, by decide, by decide, by decide, ?_⟩
  rintro ⟨ci, member, -, last⟩
  cases member
  exact absurd last (by decide)

end Thread

end Gafq
