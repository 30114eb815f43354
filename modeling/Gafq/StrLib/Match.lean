import Gafq.Ctype

/-! # Pattern matching

The matcher of `gstrlib.c`.  Pointers into the subject and into the pattern are offsets, and every
read goes through `readAt`, which fails on an offset after the terminating NUL.  `match` calls itself
with a later part of the pattern each time, so the length of the pattern bounds the depth of the
calls; `fuel` counts them.
-/

namespace Gafq.StrLib

inductive MatchError where
  /-- `gafqL_error` -/
  | pattern (msg : String)
  /-- a read outside of a string -/
  | fault
  | outOfFuel
deriving DecidableEq, Repr

abbrev MatchM := Except MatchError

/-- `*p` -/
def readAt (l : List UInt8) (p : Nat) : MatchM UInt8 :=
  if p < l.length then .ok (l.getD p 0)
  else if p = l.length then .ok 0
  else .error .fault

/-- The memory block from `p` on. -/
def readBlock (l : List UInt8) (p len : Nat) : MatchM (List UInt8) :=
  if p + len ≤ l.length then .ok ((l.drop p).take len) else .error .fault

inductive CaptureLen where
  /-- `CAP_UNFINISHED` -/
  | unfinished
  /-- `CAP_POSITION` -/
  | position
  | finished (len : Nat)
deriving DecidableEq, Repr

structure Capture where
  init : Nat
  len : CaptureLen
deriving DecidableEq, Repr

structure MatchState where
  /-- the captures below `level` -/
  capture : List Capture
deriving DecidableEq, Repr

/-- total number of captures (finished or unfinished) -/
def MatchState.level (ms : MatchState) : Nat := ms.capture.length

/-- `ms->capture[l]` for an `l` below `level`. -/
def MatchState.get (ms : MatchState) (l : Nat) : Capture := ms.capture.getD l ⟨0, .unfinished⟩

def MatchState.setLen (ms : MatchState) (l : Nat) (len : CaptureLen) : MatchState :=
  ⟨ms.capture.set l ⟨(ms.get l).init, len⟩⟩

/-- `GAFQ_MAXCAPTURES` -/
def maxCaptures : Nat := 32

/-- The end of a match, `none` for `NULL`, and the captures. -/
abbrev MatchResult := Option Nat × MatchState

section

variable (src : List UInt8) (pat : CString)

/-! ## Captures -/

def checkCapture (ms : MatchState) (l : UInt8) : MatchM Nat :=
  let i := l.toNat - (byte '1').toNat
  if l < byte '1' ∨ ms.level ≤ i ∨ (ms.get i).len = .unfinished then .error (.pattern "invalid capture index")
  else .ok i

/-- The loop of `capture_to_close`; it starts below `level`. -/
def captureToCloseLoop (ms : MatchState) : Nat → MatchM Nat
  | 0 => .error (.pattern "invalid pattern capture")
  | level + 1 => if (ms.get level).len = .unfinished then .ok level else captureToCloseLoop ms level

def captureToClose (ms : MatchState) : MatchM Nat := captureToCloseLoop ms ms.level

/-! ## Classes -/

/-- Look for a `]`. -/
def classendLoop : Nat → Nat → MatchM Nat
  | 0, _ => .error .outOfFuel
  | fuel + 1, p => do
    let c ← readAt pat.chars p
    if c = 0 then .error (.pattern "malformed pattern (missing ']')")
    else
      let next ← readAt pat.chars (p + 1)
      -- skip escapes (e.g. `%]')
      let p := if c = byte '%' ∧ next ≠ 0 then p + 2 else p + 1
      let c ← readAt pat.chars p
      if c = byte ']' then pure (p + 1) else classendLoop fuel p

def classend (p : Nat) : MatchM Nat := do
  let c ← readAt pat.chars p
  if c = byte '%' then
    let d ← readAt pat.chars (p + 1)
    if d = 0 then .error (.pattern "malformed pattern (ends with '%')") else pure (p + 2)
  else if c = byte '[' then
    let d ← readAt pat.chars (p + 1)
    classendLoop pat (pat.chars.length + 1) (if d = byte '^' then p + 2 else p + 1)
  else pure (p + 1)

def matchClass (c cl : UInt8) : Bool :=
  let letter := tolower cl
  if letter = byte 'a' then isalpha c == islower cl
  else if letter = byte 'c' then iscntrl c == islower cl
  else if letter = byte 'd' then isdigit c == islower cl
  else if letter = byte 'l' then islower c == islower cl
  else if letter = byte 'p' then ispunct c == islower cl
  else if letter = byte 's' then isspace c == islower cl
  else if letter = byte 'u' then isupper c == islower cl
  else if letter = byte 'w' then isalnum c == islower cl
  else if letter = byte 'x' then isxdigit c == islower cl
  else if letter = byte 'z' then (c == 0) == islower cl
  else cl == c

/-- The loop of `matchbracketclass` over the characters from `p` on and before `ec`: whether one of
them accounts for `c`.  Each iteration moves `p`, so `ec - p` iterations are enough. -/
def bracketLoop (c : UInt8) (ec : Nat) : Nat → Nat → MatchM Bool
  | 0, _ => pure false
  | fuel + 1, p =>
    if p < ec then do
      let x ← readAt pat.chars p
      if x = byte '%' then
        let cl ← readAt pat.chars (p + 1)
        if matchClass c cl then pure true else bracketLoop c ec fuel (p + 2)
      else
        let next ← readAt pat.chars (p + 1)
        if next = byte '-' ∧ p + 2 < ec then
          let hi ← readAt pat.chars (p + 2)
          if x ≤ c ∧ c ≤ hi then pure true else bracketLoop c ec fuel (p + 3)
        else if x = c then pure true
        else bracketLoop c ec fuel (p + 1)
    else pure false

def matchbracketclass (c : UInt8) (p ec : Nat) : MatchM Bool := do
  let d ← readAt pat.chars (p + 1)
  if d = byte '^' then
    -- skip the `^'
    let found ← bracketLoop pat c ec (ec - (p + 2)) (p + 2)
    pure (!found)
  else bracketLoop pat c ec (ec - (p + 1)) (p + 1)

def singlematch (c : UInt8) (p ep : Nat) : MatchM Bool := do
  let x ← readAt pat.chars p
  if x = byte '.' then pure true
  else if x = byte '%' then
    let cl ← readAt pat.chars (p + 1)
    pure (matchClass c cl)
  else if x = byte '[' then matchbracketclass pat c p (ep - 1)
  else pure (x == c)

/-- `s < ms->src_end && singlematch(uchar(*s), p, ep)`. -/
def singleAt (s p ep : Nat) : MatchM Bool :=
  if s < src.length then do
    let c ← readAt src s
    singlematch pat c p ep
  else pure false

/-! ## Items -/

/-- The loop of `matchbalance`, with at most `left` characters of the subject to go.  The `int` wraps around. -/
def balanceLoop (b e : UInt8) : (left s : Nat) → (cont : Int32) → MatchM (Option Nat)
  | 0, _, _ => pure none
  | left + 1, s, cont =>
    if s < src.length then do
      let c ← readAt src s
      if c = e then
        let cont := cont - 1
        if cont = 0 then pure (some (s + 1)) else balanceLoop b e left (s + 1) cont
      else if c = b then balanceLoop b e left (s + 1) (cont + 1)
      else balanceLoop b e left (s + 1) cont
    else pure none

def matchbalance (s p : Nat) : MatchM (Option Nat) := do
  let b ← readAt pat.chars p
  if b = 0 then .error (.pattern "unbalanced pattern")
  else
    let e ← readAt pat.chars (p + 1)
    if e = 0 then .error (.pattern "unbalanced pattern")
    else
      let c ← readAt src s
      if c ≠ b then pure none else balanceLoop src b e (src.length - s) (s + 1) 1

def matchCapture (ms : MatchState) (s : Nat) (l : UInt8) : MatchM (Option Nat) := do
  let i ← checkCapture ms l
  match (ms.get i).len with
  | .finished len =>
    if len ≤ src.length - s then
      let captured ← readBlock src (ms.get i).init len
      let there ← readBlock src s len
      pure (if captured = there then some (s + len) else none)
    else pure none
  -- as a `size_t' these are larger than any string
  | .position | .unfinished => pure none

/-- The character before `s`, or a NUL. -/
def previousChar (s : Nat) : MatchM UInt8 := if s = 0 then pure 0 else readAt src (s - 1)

/-- The test of a frontier `%f` at `s`. -/
def frontier (s p ep : Nat) : MatchM Bool := do
  let previous ← previousChar src s
  let before ← matchbracketclass pat previous p (ep - 1)
  if before then pure false
  else
    let c ← readAt src s
    matchbracketclass pat c p (ep - 1)

/-! ## Matching

`rec` is `match`, as the functions that try the rest of the pattern see it.
-/

variable (rec : MatchState → Nat → Nat → MatchM MatchResult)

/-- The first loop of `max_expand`: it counts the maximum expansion for the item. -/
def countMax (s p ep : Nat) : (left i : Nat) → MatchM Nat
  | 0, i => pure i
  | left + 1, i => do
    if ← singleAt src pat (s + i) p ep then countMax s p ep left (i + 1) else pure i

/-- The second loop: it keeps trying to match with the maximum repetitions. -/
def tryMax (s ep : Nat) : Nat → MatchState → MatchM MatchResult
  | 0, ms => rec ms s (ep + 1)
  | i + 1, ms => do
    let (res, ms) ← rec ms (s + (i + 1)) (ep + 1)
    match res with
    | some e => pure (some e, ms)
    -- didn't match; reduce 1 repetition to try again
    | none => tryMax s ep i ms

def maxExpand (ms : MatchState) (s p ep : Nat) : MatchM MatchResult := do
  let i ← countMax src pat s p ep (src.length - s) 0
  tryMax rec s ep i ms

/-- The loop of `min_expand`, with `left` characters of the subject to go. -/
def minLoop (p ep : Nat) : (left : Nat) → MatchState → Nat → MatchM MatchResult
  | 0, ms, s => rec ms s (ep + 1)
  | left + 1, ms, s => do
    let (res, ms) ← rec ms s (ep + 1)
    match res with
    | some e => pure (some e, ms)
    | none =>
      -- try with one more repetition
      if ← singleAt src pat s p ep then minLoop p ep left ms (s + 1) else pure (none, ms)

def minExpand (ms : MatchState) (s p ep : Nat) : MatchM MatchResult := minLoop src pat rec p ep (src.length - s) ms s

def startCapture (ms : MatchState) (s p : Nat) (what : CaptureLen) : MatchM MatchResult :=
  if maxCaptures ≤ ms.level then .error (.pattern "too many captures")
  else do
    let (res, ms) ← rec ⟨ms.capture ++ [⟨s, what⟩]⟩ s p
    match res with
    | some e => pure (some e, ms)
    -- undo capture
    | none => pure (none, ⟨ms.capture.dropLast⟩)

def endCapture (ms : MatchState) (s p : Nat) : MatchM MatchResult := do
  let l ← captureToClose ms
  -- close capture
  let (res, ms) ← rec (ms.setLen l (.finished (s - (ms.get l).init))) s p
  match res with
  | some e => pure (some e, ms)
  -- undo capture
  | none => pure (none, ms.setLen l .unfinished)

/-- The label `dflt`: a pattern item. -/
def matchDefault (ms : MatchState) (s p : Nat) : MatchM MatchResult := do
  let ep ← classend pat p
  let m ← singleAt src pat s p ep
  let suffix ← readAt pat.chars ep
  if suffix = byte '?' then
    if m then
      let (res, ms) ← rec ms (s + 1) (ep + 1)
      match res with
      | some e => pure (some e, ms)
      | none => rec ms s (ep + 1)
    else rec ms s (ep + 1)
  else if suffix = byte '*' then maxExpand src pat rec ms s p ep
  else if suffix = byte '+' then
    if m then maxExpand src pat rec ms (s + 1) p ep else pure (none, ms)
  else if suffix = byte '-' then minExpand src pat rec ms s p ep
  else if m then rec ms (s + 1) ep
  else pure (none, ms)

/-- The body of `match`. -/
def matchStep (ms : MatchState) (s p : Nat) : MatchM MatchResult := do
  let c ← readAt pat.chars p
  if c = byte '(' then
    -- position capture?
    if (← readAt pat.chars (p + 1)) = byte ')' then startCapture rec ms s (p + 2) .position
    else startCapture rec ms s (p + 1) .unfinished
  else if c = byte ')' then endCapture rec ms s (p + 1)
  else if c = byte '%' then
    let d ← readAt pat.chars (p + 1)
    if d = byte 'b' then
      match ← matchbalance src pat s (p + 2) with
      | none => pure (none, ms)
      | some s => rec ms s (p + 4)
    else if d = byte 'f' then
      if (← readAt pat.chars (p + 2)) ≠ byte '[' then .error (.pattern "missing '[' after '%f' in pattern")
      else
        let ep ← classend pat (p + 2)
        if ← frontier src pat s (p + 2) ep then rec ms s ep else pure (none, ms)
    else if isdigit d then
      match ← matchCapture src ms s d with
      | none => pure (none, ms)
      | some s => rec ms s (p + 2)
    else matchDefault src pat rec ms s p
  else if c = 0 then pure (some s, ms)
  else if c = byte '$' then
    -- is the `$' the last char in pattern?
    if (← readAt pat.chars (p + 1)) = 0 then pure (if s = src.length then some s else none, ms)
    else matchDefault src pat rec ms s p
  else matchDefault src pat rec ms s p

end

def matchLoop (src : List UInt8) (pat : CString) : Nat → MatchState → Nat → Nat → MatchM MatchResult
  | 0, _, _, _ => .error .outOfFuel
  | fuel + 1, ms, s, p => matchStep src pat (matchLoop src pat fuel) ms s p

/-- `match`. -/
def doMatch (src : List UInt8) (pat : CString) (ms : MatchState) (s p : Nat) : MatchM MatchResult :=
  matchLoop src pat (pat.chars.length + 1) ms s p

end Gafq.StrLib
