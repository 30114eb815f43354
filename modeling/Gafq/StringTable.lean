import Gafq.String

/-! # The string table and its counter

`gstring.c` and the sweep of the strings in `ggc.c`, with the counter `nuse` and the hashes that are
kept in the strings.  Nothing but strings is here; what the collector does to other objects leaves
these parts of the state alone.
-/

namespace Gafq.StringTable

open GC (Colour GCPhase chain lmod strhash minStrTabSize)

/-- `MAX_INT`. -/
def maxInt : Nat := 2 ^ 31 - 1

structure State where
  /-- the characters of the string at an address -/
  str : Nat → TString
  /-- `ts->tsv.hash` -/
  hash : Nat → Nat
  /-- `none` where nothing is allocated -/
  marked : Nat → Option Colour
  /-- `FIXEDBIT` -/
  fixed : Nat → Bool
  strt : List (List Nat)
  /-- number of elements -/
  nuse : UInt32
  gcstate : GCPhase
  /-- the white bit of `currentwhite` -/
  currentwhite : Bool
  /-- position of sweep in `strt` -/
  sweepstrgc : Nat

namespace State

/-- The strings of the table. -/
def strings (s : State) : List Nat := s.strt.flatten

def size (s : State) : Nat := s.strt.length

def isdead (s : State) (a : Nat) : Bool := s.marked a == some (.white !s.currentwhite)

/-- Change the colour bits of a string. -/
def paint (s : State) (a : Nat) (f : Colour → Colour) : State :=
  { s with marked := Function.update s.marked a ((s.marked a).map f) }

def changewhite (s : State) (a : Nat) : State :=
  s.paint a fun
    | .white bit => .white !bit
    | c => c

def stringmark (s : State) (a : Nat) : State :=
  s.paint a fun
    | .white _ => .gray
    | c => c

def makewhite (s : State) (a : Nat) : State := s.paint a fun _ => .white s.currentwhite

/-- `gafqS_fix`. -/
def fix (s : State) (a : Nat) : State := { s with fixed := Function.update s.fixed a true }

/-- `gafqS_resize`. -/
def resize (s : State) (newsize : Nat) : State :=
  -- cannot resize during GC traverse
  if s.gcstate = .sweepstring then s
  else
    { s with strt := s.strings.foldl (fun newhash p => chain newhash (lmod (s.hash p) newsize) p) (List.replicate newsize []) }

/-- The static `newlstr` at an address. -/
def newstring (s : State) (str : TString) (h fresh : Nat) : State :=
  let s := { s with
    str := Function.update s.str fresh str
    hash := Function.update s.hash fresh h
    marked := Function.update s.marked fresh (some (.white s.currentwhite))
    fixed := Function.update s.fixed fresh false }
  -- chain new entry
  let s := { s with strt := chain s.strt (lmod h s.size) fresh, nuse := s.nuse + 1 }
  -- too crowded
  if UInt32.ofNat s.size < s.nuse ∧ s.size ≤ maxInt / 2 then s.resize (s.size * 2) else s

/-- `gafqS_newlstr`: the string and the state; `fresh` is the address for a new one. -/
def newlstr (s : State) (str : TString) (fresh : Nat) : Nat × State :=
  let h := strhash str
  match (s.strt.getD (lmod h s.size) []).find? fun o => s.str o == str with
  | some o =>
    -- string may be dead
    (o, if s.isdead o then s.changewhite o else s)
  | none => (fresh, s.newstring str h fresh)

/-! ## The sweep -/

/-- `freeobj` of a string. -/
def freestring (s : State) (a : Nat) : State :=
  { s with nuse := s.nuse - 1, marked := Function.update s.marked a none }

/-- `sweepwholelist` of a bucket: what stays in the list, and the state. -/
def sweeplist (s : State) : List Nat → List Nat × State
  | [] => ([], s)
  | curr :: rest =>
    if s.isdead curr && !s.fixed curr then (s.freestring curr).sweeplist rest
    else
      let (kept, s) := (s.makewhite curr).sweeplist rest
      (curr :: kept, s)

/-- The step of the collector in the phase `GCSsweepstring`. -/
def sweepstring (s : State) : State :=
  let (kept, s) := s.sweeplist (s.strt.getD s.sweepstrgc [])
  let s := { s with strt := s.strt.set s.sweepstrgc kept, sweepstrgc := s.sweepstrgc + 1 }
  -- nothing more to sweep?
  if s.size ≤ s.sweepstrgc then { s with gcstate := .sweep } else s

/-- Check size of string hash. -/
def checkSizes (s : State) : State :=
  if s.nuse < UInt32.ofNat (s.size / 4) ∧ minStrTabSize * 2 < s.size then s.resize (s.size / 2) else s

/-- The end of `atomic`: flip current white. -/
def flip (s : State) : State :=
  { s with currentwhite := !s.currentwhite, sweepstrgc := 0, gcstate := .sweepstring }

/-! ## Runs -/

/-- `gafqS_resize(L, MINSTRTABSIZE)` has been called for the new state. -/
def newstate : State where
  str _ := []
  hash _ := 0
  marked _ := none
  fixed _ := false
  strt := List.replicate minStrTabSize []
  nuse := 0
  gcstate := .pause
  currentwhite := false
  sweepstrgc := 0

inductive Step (s : State) : State → Prop
  | newlstr (str : TString) {fresh : Nat} : s.marked fresh = none → Step s (s.newlstr str fresh).2
  | resize {newsize : Nat} : 0 < newsize → Step s (s.resize newsize)
  | fix (a : Nat) : Step s (s.fix a)
  | markroot : s.gcstate = .pause → Step s { s with gcstate := .propagate }
  | stringmark (a : Nat) : s.gcstate = .propagate → Step s (s.stringmark a)
  | atomic : s.gcstate = .propagate → Step s s.flip
  /-- `gafqC_fullgc` abandons a cycle. -/
  | abandon : s.gcstate = .pause ∨ s.gcstate = .propagate →
      Step s { s with sweepstrgc := 0, gcstate := .sweepstring }
  | sweepstring : s.gcstate = .sweepstring → Step s s.sweepstring
  | sweep : s.gcstate = .sweep → Step s { s.checkSizes with gcstate := .finalize }
  | finalize : s.gcstate = .finalize → Step s { s with gcstate := .pause }

/-- The states that can follow `s`. -/
abbrev Run (s s' : State) : Prop := Relation.ReflTransGen Step s s'

/-- The states that can follow `s` before the white flips. -/
abbrev CycleRun (s s' : State) : Prop :=
  Relation.ReflTransGen (fun s s' => Step s s' ∧ s'.currentwhite = s.currentwhite) s s'

end State

end Gafq.StringTable
