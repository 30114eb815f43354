import Gafq.Mutator

/-! # A new state

`gafq_newstate` and the function `f_gafqopen` that it runs: the main thread, the table of globals, the
registry and the strings that are never collected.  A run of the system interleaves single steps of
the collector with operations of the program.
-/

namespace Gafq.GC

variable {N : Type}

/-- The characters of an ASCII string. -/
def chars (str : String) : TString := str.toList.map fun c => UInt8.ofNat c.toNat

/-- `gafqT_eventname`. -/
def eventname : List String :=
  ["__index", "__newindex", "__gc", "__mode", "__eq", "__add", "__sub", "__mul", "__div", "__mod", "__pow", "__unm",
    "__len", "__lt", "__le", "__concat", "__call"]

/-- The reserved words of `gafqX_tokens`. -/
def reserved : List String :=
  ["and", "break", "do", "else", "elseif", "end", "false", "for", "function", "if", "in", "local", "nil", "not", "or",
    "repeat", "return", "then", "true", "until", "while"]

/-- `MEMERRMSG`. -/
def memErrMsg : String := "not enough memory"

/-- `gafqH_new(L, 0, 2)`. -/
def newGlobals : Gafq.Table N :=
  match Table.new { array := true, nodes := true } 0 2 with
  | .ok _ h => h
  | .error _ h => h

namespace State

/-- The state when `f_gafqopen` begins to create strings: the main thread and the tables of globals
and of the registry are there, and `gafqS_resize` has made the string table. -/
def opened : State N where
  string _ := []
  udata _ := { env := 0 }
  proto _ := {}
  closure _ := .c 0 []
  upval _ := .closed .nil
  fixed r := r == .thread 0
  gcstate := .pause
  currentwhite := false
  swept := []
  unswept := [.table 1, .table 0, .thread 0]
  strt := List.replicate minStrTabSize []
  sweepstrgc := 0
  tmudata := []
  uvhead := []
  mainthread := 0
  registry := 1
  mt _ := none
  -- positions in `eventname`
  tmMode := 3
  tmGc := 2
  running := 0
  table _ := { h := newGlobals }
  -- slot 0 is the `function` entry of the first `ci`
  thread _ := { gt := .object .table 0, top := 1, ci := [{ top := 1 + minStack, isC := true }] }
  marked r := if r = .thread 0 ∨ r = .table 0 ∨ r = .table 1 then some (.white false) else none
  gray := []
  grayagain := []
  weak := []

/-- `gafqS_fix(gafqS_new(L, str))`, at the address `fresh` if the string is new. -/
def newfixed (s : State N) (str : TString) (fresh : Nat) : State N :=
  let (a, s) := s.newlstr str fresh
  s.fix a

/-- The strings get the addresses from `fresh` on. -/
def newfixeds (s : State N) (fresh : Nat) : List String → State N
  | [] => s
  | str :: rest => (s.newfixed (chars str) fresh).newfixeds (fresh + 1) rest

/-- `gafq_newstate`. -/
def newstate : State N := opened.newfixeds 0 (eventname ++ (reserved ++ [memErrMsg]))

example : (newstate : State Nat).string 3 = chars "__mode" := by decide +kernel

section Runs

variable [GafqNumber N]

/-- A step of the collector or an operation of the program. -/
inductive Step (s : State N) : State N → Prop
  | singlestep : Step s s.singlestep
  | mutates {s' : State N} : Mutates s s' → Step s s'

/-- The states that can follow `s`. -/
abbrev Run (s s' : State N) : Prop := Relation.ReflTransGen Step s s'

end Runs

end State

end Gafq.GC
