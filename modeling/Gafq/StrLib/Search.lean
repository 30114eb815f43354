import Gafq.StrLib.Match

/-! # Functions that search for a pattern

`string.find`, `string.match`, the iterator of `string.gmatch` and `string.gsub` of `gstrlib.c`, after
their arguments have been read.  The stack has room for the captures.
-/

namespace Gafq.StrLib

/-! ## Captures as values -/

/-- A value that a function of the library pushes. -/
inductive Pushed where
  | nil
  | integer (n : Int)
  | string (bs : List UInt8)
deriving DecidableEq, Repr

section

variable (src : List UInt8)

/-- The characters from `s` up to `e`. -/
def segment (s e : Nat) : List UInt8 := (src.drop s).take (e - s)

def pushOnecapture (ms : MatchState) (i s e : Nat) : MatchM Pushed :=
  if ms.level ≤ i then
    -- add whole match
    if i = 0 then pure (.string (segment src s e)) else .error (.pattern "invalid capture index")
  else
    match (ms.get i).len with
    | .unfinished => .error (.pattern "unfinished capture")
    | .position => pure (.integer ((ms.get i).init + 1))
    | .finished len => pure (.string (segment src (ms.get i).init ((ms.get i).init + len)))

/-- `push_captures`; `whole` is the whole match, or `none` for `NULL`. -/
def pushCaptures (ms : MatchState) (whole : Option (Nat × Nat)) : MatchM (List Pushed) :=
  let nlevels := if ms.level = 0 ∧ whole.isSome then 1 else ms.level
  let (s, e) := whole.getD (0, 0)
  (List.range nlevels).mapM fun i => pushOnecapture src ms i s e

/-! ## `string.find` -/

/-- `memchr` on `n` characters from `s` on. -/
def memchr (c : UInt8) (s : Nat) : Nat → Option Nat
  | 0 => none
  | n + 1 => if src.getD s 0 = c then some s else memchr c (s + 1) n

/-- `memcmp(init, s2, l) == 0`. -/
def memcmpEq (init : Nat) (s2 : List UInt8) : Bool := (src.drop init).take s2.length == s2

/-- The loop of `gmemfind` for a string of the character `c` and the characters `s2`.  Each iteration
makes `l1` smaller. -/
def memfindLoop (c : UInt8) (s2 : List UInt8) : (fuel s1 l1 : Nat) → Option Nat
  | 0, _, _ => none
  | fuel + 1, s1, l1 =>
    if 0 < l1 then
      match memchr src c s1 l1 with
      | none => none
      | some i =>
        -- 1st char is already checked
        let init := i + 1
        if memcmpEq src init s2 then some (init - 1)
        -- correct `l1' and `s1' to try again
        else memfindLoop c s2 fuel init (l1 - (init - s1))
    else none

def gmemfind (s1 l1 : Nat) (s2 : List UInt8) : Option Nat :=
  match s2 with
  -- empty strings are everywhere
  | [] => some s1
  | c :: s2 =>
    if l1 < s2.length + 1 then none
    else
      -- `s2' cannot be found after that
      memfindLoop src c s2 (l1 - s2.length) s1 (l1 - s2.length)

/-- `posrelat`: a negative position counts from the end. -/
def posrelat (pos : Int) (len : Nat) : Int :=
  let pos := if pos < 0 then pos + (len + 1) else pos
  if 0 ≤ pos then pos else 0

/-- The offset at which a search begins. -/
def initOffset (pos : Int) : Nat :=
  let init := posrelat pos src.length - 1
  if init < 0 then 0 else if src.length < init.toNat then src.length else init.toNat

/-- `SPECIALS` -/
def specials : List UInt8 := "^$*+?.([%-".toList.map byte

/-- `strpbrk(p, SPECIALS) == NULL` -/
def noSpecials (p : CString) : Bool := p.chars.all fun c => !specials.contains c

/-- A plain search. -/
def plainSearch (p : List UInt8) (init : Nat) : List Pushed :=
  match gmemfind src init (src.length - init) p with
  | some s2 => [.integer (s2 + 1), .integer (s2 + p.length)]
  | none => [.nil]

/-- The body of the loop of `str_find_aux`: what it returns if there is a match at `s1`. -/
def searchAt (find anchor : Bool) (p : CString) (s1 : Nat) : MatchM (Option (List Pushed)) := do
  -- a pattern that begins with `^' begins after it
  let (res, ms) ← doMatch src p ⟨[]⟩ s1 (if anchor then 1 else 0)
  match res with
  | some e =>
    if find then
      let captures ← pushCaptures src ms none
      pure (some (.integer (s1 + 1) :: .integer e :: captures))
    else
      let captures ← pushCaptures src ms (some (s1, e))
      pure (some captures)
  | none => pure none

/-- The loop of `str_find_aux` from `s1` on; `left` is the number of characters to go. -/
def searchLoop (find anchor : Bool) (p : CString) : (left s1 : Nat) → MatchM (List Pushed)
  | 0, s1 => do
    let result ← searchAt src find anchor p s1
    pure (result.getD [.nil])
  | left + 1, s1 => do
    match ← searchAt src find anchor p s1 with
    | some result => pure result
    | none => if anchor then pure [.nil] else searchLoop find anchor p left (s1 + 1)

/-- The branch of `str_find_aux` that matches. -/
def matchSearch (find : Bool) (p : CString) (init : Nat) : MatchM (List Pushed) :=
  searchLoop src find (p.chars.head? == some (byte '^')) p (src.length - init) init

/-- `str_find_aux`; `plain` is the fourth argument. -/
def strFindAux (find plain : Bool) (p : List UInt8) (pos : Int) : MatchM (List Pushed) :=
  if find ∧ (plain ∨ noSpecials (.ofBytes p)) then pure (plainSearch src p (initOffset src pos))
  else matchSearch src find (.ofBytes p) (initOffset src pos)

/-! ## `string.gmatch` and `string.gsub` -/

/-- What a match was found on, and its captures. -/
structure Segment where
  start : Nat
  stop : Nat
  captures : List Pushed
deriving DecidableEq, Repr

/-- The loop of `gmatch_aux` from `s` on: the match, and the third upvalue after it. -/
def gmatchLoop (p : CString) : (left s : Nat) → MatchM (Option (Segment × Nat))
  | 0, _ => pure none
  | left + 1, s => do
    let (res, ms) ← doMatch src p ⟨[]⟩ s 0
    match res with
    | some e =>
      -- empty match? go at least one position
      let newstart := if e = s then e + 1 else e
      let captures ← pushCaptures src ms (some (s, e))
      pure (some (⟨s, e, captures⟩, newstart))
    | none => gmatchLoop p left (s + 1)

/-- `gmatch_aux` with `start` in the third upvalue. -/
def gmatchAux (p : CString) (start : Nat) : MatchM (Option (Segment × Nat)) :=
  gmatchLoop src p (src.length + 1 - start) start

/-- The iterator is called until it returns no more values. -/
def gmatchAll (p : CString) : (fuel start : Nat) → MatchM (List Segment)
  | 0, _ => .error .outOfFuel
  | fuel + 1, start => do
    match ← gmatchAux src p start with
    | none => pure []
    | some (seg, newstart) =>
      let rest ← gmatchAll p fuel newstart
      pure (seg :: rest)

/-- The characters of a value, as `gafqL_addvalue` adds them. -/
def Pushed.chars : Pushed → List UInt8
  | .nil => []
  | .string bs => bs
  | .integer n => (toString n).toList.map byte

/-- The loop of `add_s` over the characters of the replacement string. -/
def addS (ms : MatchState) (s e : Nat) : List UInt8 → MatchM (List UInt8)
  | [] => pure []
  | c :: news =>
    if c ≠ byte '%' then do
      let rest ← addS ms s e news
      pure (c :: rest)
    else
      -- skip ESC; the character after the last one is the NUL
      match news with
      | [] => pure [0]
      | d :: news =>
        if isdigit d = false then do
          let rest ← addS ms s e news
          pure (d :: rest)
        else if d = byte '0' then do
          let rest ← addS ms s e news
          pure (segment src s e ++ rest)
        else do
          let v ← pushOnecapture src ms (d.toNat - (byte '1').toNat) s e
          let rest ← addS ms s e news
          pure (v.chars ++ rest)

/-- What `str_gsub` returns, with the matches it found. -/
structure GsubResult where
  result : List UInt8
  /-- number of substitutions -/
  n : Nat
  found : List (Nat × Nat × MatchState)
deriving DecidableEq, Repr

/-- The end of the match at `s`, or `s` itself if there is none or it is empty. -/
def skipTo (s : Nat) : Option Nat → Nat
  | some e => if s < e then e else s
  | none => s

/-- The loop of `str_gsub`; `addValue` is `add_value`, and `left` bounds the number of iterations. -/
def gsubLoop (p : CString) (anchor : Bool) (maxS : Int) (addValue : MatchState → Nat → Nat → MatchM (List UInt8)) :
    (left s n : Nat) → MatchM GsubResult
  | 0, _, _ => .error .outOfFuel
  | left + 1, s, n =>
    if (n : Int) < maxS then do
      let (res, ms) ← doMatch src p ⟨[]⟩ s (if anchor then 1 else 0)
      let found := (res.map fun e => (s, e, ms)).toList
      let added ← match res with
        | some e => addValue ms s e
        | none => pure []
      let n := n + found.length
      -- non empty match?
      let s' := skipTo s res
      if s < s' then
        -- skip it
        if anchor then pure ⟨added ++ src.drop s', n, found⟩
        else
          let rest ← gsubLoop p anchor maxS addValue left s' n
          pure ⟨added ++ rest.result, rest.n, found ++ rest.found⟩
      else if s < src.length then
        if anchor then pure ⟨added ++ (segment src s (s + 1) ++ src.drop (s + 1)), n, found⟩
        else
          let rest ← gsubLoop p anchor maxS addValue left (s + 1) n
          pure ⟨added ++ (segment src s (s + 1) ++ rest.result), rest.n, found ++ rest.found⟩
      else pure ⟨added ++ src.drop s, n, found⟩
    else pure ⟨src.drop s, n, []⟩

/-- A conversion to `int`. -/
def castInt (k : Int) : Int := (k + 2 ^ 31) % 2 ^ 32 - 2 ^ 31

/-- `str_gsub`; `maxS` is the fourth argument. -/
def strGsub (p : CString) (maxS : Option Int) (addValue : MatchState → Nat → Nat → MatchM (List UInt8)) :
    MatchM GsubResult :=
  gsubLoop src p (p.chars.head? == some (byte '^')) (castInt (maxS.getD (src.length + 1))) addValue (src.length + 2) 0 0

end

end Gafq.StrLib
