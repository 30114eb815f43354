import Gafq.State

/-! # Full collections

`gafqC_fullgc` finishes the cycle that is under way without marking anything more, and then goes
through a whole cycle.  Only the second loop may call a tag method, and it does so in phase
`GCSfinalize`; a run of the program therefore sees a full collection as one step up to that phase,
after which the rest of the loop consists of steps of the collector.
-/

namespace Gafq.GC

variable {N : Type}

namespace State

/-- The first branch of `gafqC_fullgc`: a mark phase is given up. -/
def abandon (s : State N) : State N :=
  if s.gcstate = .pause ∨ s.gcstate = .propagate then
    { s with
      -- reset sweep marks to sweep all elements (returning them to white)
      sweepstrgc := 0, swept := [], unswept := s.rootgc
      -- reset other collector lists
      gray := [], grayagain := [], weak := [], gcstate := .sweepstring }
  else s

/-- `while (g->gcstate != phase) singlestep(L)`; `none` if that takes more steps than `fuel`. -/
def stepsUntil (phase : GCPhase) : Nat → State N → Option (State N)
  | 0, s => if s.gcstate = phase then some s else none
  | fuel + 1, s => if s.gcstate = phase then some s else stepsUntil phase fuel s.singlestep

/-- `gafqC_fullgc`. -/
def fullgc (fuel : Nat) (s : State N) : Option (State N) :=
  -- finish any pending sweep phase
  match stepsUntil .finalize fuel s.abandon with
  | none => none
  | some s => stepsUntil .pause fuel s.markroot

/-- The states in the first loop of `gafqC_fullgc`. -/
inductive Finishing (s : State N) : State N → Prop
  | abandon : Finishing s s.abandon
  | singlestep {s' : State N} : Finishing s s' → s'.gcstate ≠ .finalize → Finishing s s'.singlestep

/-- The states in the second loop of `gafqC_fullgc` until it comes to phase `GCSfinalize`. -/
inductive Collecting (s : State N) : State N → Prop
  | markroot {s' : State N} : Finishing s s' → s'.gcstate = .finalize → Collecting s s'.markroot
  | singlestep {s' : State N} : Collecting s s' → s'.gcstate ≠ .finalize → Collecting s s'.singlestep

section Runs

variable [GafqNumber N]

/-- A step of a program that may also call for full collections. -/
inductive FullStep (s : State N) : State N → Prop
  | step {s' : State N} : Step s s' → FullStep s s'
  | fullgc {s' : State N} : Collecting s s' → s'.gcstate = .finalize → FullStep s s'

/-- The states that can follow `s` if the program may call for full collections. -/
abbrev FullRun (s s' : State N) : Prop := Relation.ReflTransGen FullStep s s'

/-- The states that come up in a run, those inside a full collection among them. -/
inductive Occurs : State N → Prop
  | run {s : State N} : FullRun newstate s → Occurs s
  | finishing {s s' : State N} : FullRun newstate s → Finishing s s' → Occurs s'
  | collecting {s s' : State N} : FullRun newstate s → Collecting s s' → Occurs s'

/-- A sweep that goes to its end; the program may do something between two steps of the collector. -/
structure SweepRun (run : Nat → State N) (last : Nat) : Prop where
  sweeping : ∀ i < last, (run i).gcstate = .sweepstring ∨ (run i).gcstate = .sweep
  step : ∀ i < last, Step (run i) (run (i + 1))
  done : (run last).gcstate = .finalize

end Runs

end State

end Gafq.GC
