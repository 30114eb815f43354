import Gafq.Ctype
import Gafq.Object
import Gafq.Base.Program

/-! # The lexical analyzer

`glex.c`.  The functions get characters from the stream with `next`; `fuel` bounds the loops.  A string
is its bytes; `Mbuffer` is the bytes in use and the size of the buffer.
-/

namespace Gafq

open Base

namespace Lexer

/-! ## Tokens -/

/-- `gafqX_tokens`; the reserved words come first. -/
def tokens : List String :=
  ["and", "break", "do", "else", "elseif", "end", "false", "for", "function", "if", "in", "local", "nil", "not", "or", "repeat",
   "return", "then", "true", "until", "while", "..", "...", "==", ">=", "<=", "~=", "<number>", "<name>", "<string>", "<eof>"]

/-- `FIRST_RESERVED` -/
def firstReserved : Nat := 257

/-- `NUM_RESERVED` -/
def numReserved : Nat := 21

def tkConcat : Nat := 278
def tkDots : Nat := 279
def tkEq : Nat := 280
def tkGe : Nat := 281
def tkLe : Nat := 282
def tkNe : Nat := 283
def tkNumber : Nat := 284
def tkName : Nat := 285
def tkString : Nat := 286
def tkEos : Nat := 287

def bytes (s : String) : TString := s.toList.map byte

/-- The token of a reserved word. -/
def reserved (ts : TString) : Option Nat := (((tokens.take numReserved).map bytes).idxOf? ts).map (firstReserved + ·)

/-- Semantics information. -/
inductive SemInfo (N : Type) where
  | r (n : N)
  | ts (s : TString)
deriving DecidableEq, Repr

structure Token (N : Type) where
  token : Nat
  seminfo : SemInfo N
deriving DecidableEq, Repr

/-! ## The state -/

structure LexState (N : Type) where
  /-- current character; `none` is `EOZ` -/
  current : Option UInt8
  /-- input line counter -/
  linenumber : Nat
  /-- line of last token `consumed' -/
  lastline : Nat
  /-- current token -/
  t : Token N
  /-- look ahead token -/
  lookahead : Token N
  /-- the bytes of `buff` in use -/
  buff : List UInt8
  buffsize : Nat
  /-- locale decimal point -/
  decpoint : UInt8

inductive LexError where
  /-- `gafqX_lexerror`: the line, the message and the text of the token -/
  | syntaxError (line : Nat) (msg : String) (near : Option TString)
  /-- arithmetic on an `int` beyond its range, whose result is not defined -/
  | intOverflow
  | outOfFuel
deriving DecidableEq, Repr

abbrev LexM := Program UInt8 LexError

/-- The C library. -/
structure Library (N : Type) where
  /-- `strtod`: the number and how many characters were converted -/
  strtod : List UInt8 → N × Nat
  /-- `strtoul` with base 16 -/
  strtoul : List UInt8 → N × Nat
  /-- the decimal point of `localeconv` -/
  decimalPoint : UInt8

/-- A library for which no text is a number. -/
def noNumbers : Library Unit := ⟨fun _ => ((), 0), fun _ => ((), 0), byte '.'⟩

/-- A state that `gafqX_setinput` has not been called with. -/
def blankState : LexState Unit := ⟨none, 0, 0, ⟨0, .r ()⟩, ⟨0, .r ()⟩, [], 0, 0⟩

/-- `GAFQ_MINBUFFER` -/
def minBuffer : Nat := 32

/-- `MAX_SIZET` -/
def maxSizeT : Nat := 2 ^ 64 - 3

/-- `MAX_INT` -/
def maxInt : Nat := 2 ^ 31 - 3

/-- `INT_MAX` -/
def intMax : Nat := 2 ^ 31 - 1

variable {N : Type}

/-- `isdigit` and so on, of the current character. -/
def LexState.currentIs (ls : LexState N) (f : UInt8 → Bool) : Bool := ls.current.any f

def LexState.currIsNewline (ls : LexState N) : Bool := ls.currentIs fun c => c == byte '\n' || c == byte '\r'

/-! ## Errors -/

/-- `gafqX_token2str` -/
def token2str (token : Nat) : TString :=
  if token < firstReserved then
    if iscntrl (UInt8.ofNat token) then bytes ("char(" ++ toString token ++ ")") else [UInt8.ofNat token]
  else bytes (tokens.getD (token - firstReserved) "")

/-- The C string in a buffer. -/
def textOf (buff : List UInt8) : TString := buff.takeWhile (· != 0)

/-- `save` -/
def save (ls : LexState N) (c : UInt8) : LexM (LexState N) :=
  if ls.buff.length + 1 > ls.buffsize then
    if ls.buffsize ≥ maxSizeT / 2 then .fail (.syntaxError ls.linenumber "lexical element too long" none)
    else pure { ls with buff := ls.buff ++ [c], buffsize := ls.buffsize * 2 }
  else pure { ls with buff := ls.buff ++ [c] }

/-- `txtToken` -/
def txtToken (ls : LexState N) (token : Nat) : LexM TString :=
  if token = tkName ∨ token = tkString ∨ token = tkNumber then do
    let ls ← save ls 0
    pure (textOf ls.buff)
  else pure (token2str token)

/-- `gafqX_lexerror` -/
def lexerror {α : Type} (ls : LexState N) (msg : String) (token : Nat) : LexM α :=
  if token = 0 then .fail (.syntaxError ls.linenumber msg none)
  else do
    let near ← txtToken ls token
    .fail (.syntaxError ls.linenumber msg (some near))

/-- `gafqX_syntaxerror` -/
def syntaxerror {α : Type} (ls : LexState N) (msg : String) : LexM α := lexerror ls msg ls.t.token

/-! ## Reading -/

def next (ls : LexState N) : LexM (LexState N) := .get fun c => pure { ls with current := c }

/-- The current character as a `char`; `EOZ` is -1. -/
def LexState.currentChar (ls : LexState N) : UInt8 := ls.current.getD 255

def saveAndNext (ls : LexState N) : LexM (LexState N) := do
  let ls ← save ls ls.currentChar
  next ls

def inclinenumber (ls : LexState N) : LexM (LexState N) := do
  let old := ls.current
  -- skip `\n' or `\r'
  let ls ← next ls
  -- skip `\n\r' or `\r\n'
  let ls ← (if ls.currIsNewline ∧ ls.current ≠ old then next ls else pure ls)
  let ls := { ls with linenumber := ls.linenumber + 1 }
  if ls.linenumber ≥ maxInt then syntaxerror ls "chunk has too many lines" else pure ls

/-- `gafqX_setinput` -/
def setinput (ls : LexState N) : LexM (LexState N) :=
  next { ls with
    decpoint := byte '.'
    -- no look-ahead token
    lookahead := { ls.lookahead with token := tkEos }
    linenumber := 1
    lastline := 1
    buffsize := minBuffer }

/-- `check_next`; `strchr` finds the NUL of the set as well. -/
def checkNext (ls : LexState N) (set : String) : LexM (Bool × LexState N) :=
  if ls.currentChar ∈ bytes set ++ [0] then do
    let ls ← saveAndNext ls
    pure (true, ls)
  else pure (false, ls)

section

variable (env : Library N) (fuel : Nat)

/-! ## Numerals -/

/-- `gafqO_str2d` -/
def str2d (s : TString) : Option N :=
  let (result, endptr) := env.strtod s
  if endptr = 0 then none
  else
    let (result, endptr) :=
      -- maybe an hexadecimal constant?
      if s.getD endptr 0 = byte 'x' ∨ s.getD endptr 0 = byte 'X' then env.strtoul s else (result, endptr)
    if (s.drop endptr).all isspace then some result else none

def buffreplace (ls : LexState N) (src dst : UInt8) : LexState N :=
  { ls with buff := ls.buff.map fun c => if c = src then dst else c }

/-- `trydecpoint` -/
def trydecpoint (ls : LexState N) : LexM (N × LexState N) :=
  let old := ls.decpoint
  let ls := { ls with decpoint := env.decimalPoint }
  let ls := buffreplace ls old ls.decpoint
  match str2d env (textOf ls.buff) with
  | some r => pure (r, ls)
  | none => lexerror (buffreplace ls ls.decpoint (byte '.')) "malformed number" tkNumber

/-- The characters that satisfy `f`. -/
def saveWhile (f : UInt8 → Bool) : Nat → LexState N → LexM (LexState N)
  | 0, _ => .fail .outOfFuel
  | fuel + 1, ls =>
    if ls.currentIs f then do
      let ls ← saveAndNext ls
      saveWhile f fuel ls
    else pure ls

def isdigitOrPoint (c : UInt8) : Bool := isdigit c || c == byte '.'

/-- A character of a name or of a numeral. -/
def isalnumOrUnderscore (c : UInt8) : Bool := isalnum c || c == byte '_'

/-- `read_numeral` -/
def readNumeral (ls : LexState N) : LexM (N × LexState N) := do
  let ls ← saveAndNext ls
  let ls ← saveWhile isdigitOrPoint fuel ls
  -- `E'?
  let (exponent, ls) ← checkNext ls "Ee"
  -- optional exponent sign
  let (_, ls) ← (if exponent then checkNext ls "+-" else pure (false, ls))
  let ls ← saveWhile isalnumOrUnderscore fuel ls
  let ls ← save ls 0
  -- follow locale for decimal point
  let ls := buffreplace ls (byte '.') ls.decpoint
  match str2d env (textOf ls.buff) with
  | some r => pure (r, ls)
  | none => trydecpoint env ls

/-! ## Long strings -/

/-- The loop of `skip_sep`. -/
def skipSepLoop : Nat → LexState N → Int → LexM (Int × LexState N)
  | 0, _, _ => .fail .outOfFuel
  | fuel + 1, ls, count =>
    if ls.current = some (byte '=') then do
      let ls ← saveAndNext ls
      if count < intMax then skipSepLoop fuel ls (count + 1) else .fail .intOverflow
    else pure (count, ls)

/-- `skip_sep` -/
def skipSep (ls : LexState N) : LexM (Int × LexState N) := do
  let s := ls.current
  let ls ← saveAndNext ls
  let (count, ls) ← skipSepLoop fuel ls 0
  pure (if ls.current = s then count else -count - 1, ls)

/-- The loop of `read_long_string`; a comment has no `seminfo`. -/
def longStringLoop (comment : Bool) (sep : Int) : Nat → LexState N → LexM (LexState N)
  | 0, _ => .fail .outOfFuel
  | left + 1, ls =>
    match ls.current with
    | none => lexerror ls (if comment then "unfinished long comment" else "unfinished long string") tkEos
    | some c =>
      if c = byte '[' then do
        let (count, ls) ← skipSep fuel ls
        if count = sep then do
          -- skip 2nd `['
          let ls ← saveAndNext ls
          if sep = 0 then lexerror ls "nesting of [[...]] is deprecated" (byte '[').toNat
          else longStringLoop comment sep left ls
        else longStringLoop comment sep left ls
      else if c = byte ']' then do
        let (count, ls) ← skipSep fuel ls
        -- skip 2nd `]'
        if count = sep then saveAndNext ls else longStringLoop comment sep left ls
      else if c = byte '\n' ∨ c = byte '\r' then do
        let ls ← save ls (byte '\n')
        let ls ← inclinenumber ls
        -- avoid wasting space
        longStringLoop comment sep left (if comment then { ls with buff := [] } else ls)
      else do
        let ls ← (if comment then next ls else saveAndNext ls)
        longStringLoop comment sep left ls

/-- `read_long_string` -/
def readLongString (ls : LexState N) (comment : Bool) (sep : Int) : LexM (TString × LexState N) := do
  -- skip 2nd `['
  let ls ← saveAndNext ls
  -- string starts with a newline?
  let ls ← (if ls.currIsNewline then inclinenumber ls else pure ls)
  let ls ← longStringLoop fuel comment sep fuel ls
  let skipped := 2 + sep.toNat
  -- `2 * (2 + sep)` is an `int`; for a comment it is not computed
  if comment ∨ 2 * skipped ≤ intMax then pure ((ls.buff.drop skipped).take (ls.buff.length - 2 * skipped), ls)
  else .fail .intOverflow

/-! ## Strings -/

/-- The loop over the digits of a decimal escape, with at most `left` digits to go. -/
def decimalEscape : Nat → LexState N → Nat → LexM (Nat × LexState N)
  | 0, ls, c => pure (c, ls)
  | left + 1, ls, c =>
    if ls.currentIs isdigit then do
      let c := 10 * c + (ls.currentChar.toNat - (byte '0').toNat)
      let ls ← next ls
      decimalEscape left ls c
    else pure (c, ls)

/-- The characters that stand for another one after a `\`. -/
def escapes : List (UInt8 × UInt8) :=
  [(byte 'a', 7), (byte 'b', 8), (byte 'f', 12), (byte 'n', 10), (byte 'r', 13), (byte 't', 9), (byte 'v', 11)]

/-- What follows a `\`. -/
def readEscape (ls : LexState N) : LexM (LexState N) :=
  match ls.current with
  -- will raise an error next loop
  | none => pure ls
  | some e =>
    match escapes.lookup e with
    | some c => do
      let ls ← save ls c
      next ls
    | none =>
      if e = byte '\n' ∨ e = byte '\r' then do
        let ls ← save ls (byte '\n')
        inclinenumber ls
      -- handles \\, \", \', and \?
      else if !isdigit e then saveAndNext ls
      else do
        let (c, ls) ← decimalEscape 3 ls 0
        if c > 255 then lexerror ls "escape sequence too large" tkString
        else save ls (UInt8.ofNat c)

/-- The loop of `read_string`. -/
def stringLoop (del : UInt8) : Nat → LexState N → LexM (LexState N)
  | 0, _ => .fail .outOfFuel
  | left + 1, ls =>
    if ls.current = some del then pure ls
    else match ls.current with
      | none => lexerror ls "unfinished string" tkEos
      | some c =>
        if c = byte '\n' ∨ c = byte '\r' then lexerror ls "unfinished string" tkString
        else if c = backslash then do
          -- do not save the `\'
          let ls ← next ls
          let ls ← readEscape ls
          stringLoop del left ls
        else do
          let ls ← saveAndNext ls
          stringLoop del left ls

/-- `read_string` -/
def readString (ls : LexState N) (del : UInt8) : LexM (TString × LexState N) := do
  let ls ← saveAndNext ls
  let ls ← stringLoop del fuel ls
  -- skip delimiter
  let ls ← saveAndNext ls
  pure ((ls.buff.drop 1).take (ls.buff.length - 2), ls)

/-! ## Tokens from the stream -/

/-- The rest of a line, for a short comment. -/
def skipLine : Nat → LexState N → LexM (LexState N)
  | 0, _ => .fail .outOfFuel
  | fuel + 1, ls =>
    if !ls.currIsNewline ∧ ls.current ≠ none then do
      let ls ← next ls
      skipLine fuel ls
    else pure ls

/-- A comment; its first `-` and the second one have been read. -/
def readComment (ls : LexState N) : LexM (LexState N) :=
  if ls.current = some (byte '[') then do
    let (sep, ls) ← skipSep fuel ls
    -- `skip_sep' may dirty the buffer
    let ls := { ls with buff := [] }
    if sep ≥ 0 then do
      -- long comment
      let (_, ls) ← readLongString fuel ls true sep
      pure { ls with buff := [] }
    -- else short comment
    else skipLine fuel ls
  else skipLine fuel ls

/-- A character that may be followed by `=`. -/
def orEqual (ls : LexState N) (c : UInt8) (withEqual : Nat) : LexM (Nat × LexState N) := do
  let ls ← next ls
  if ls.current ≠ some (byte '=') then pure (c.toNat, ls)
  else do
    let ls ← next ls
    pure (withEqual, ls)

/-- The loop of `glex`: the token, its semantics information if it has any, and the state after it. -/
def glexLoop : Nat → LexState N → SemInfo N → LexM (Token N × LexState N)
  | 0, _, _ => .fail .outOfFuel
  | left + 1, ls, seminfo =>
    match ls.current with
    | none => pure (⟨tkEos, seminfo⟩, ls)
    | some c =>
      if c = byte '\n' ∨ c = byte '\r' then do
        let ls ← inclinenumber ls
        glexLoop left ls seminfo
      else if c = byte '-' then do
        let ls ← next ls
        if ls.current ≠ some (byte '-') then pure (⟨c.toNat, seminfo⟩, ls)
        else do
          -- else is a comment
          let ls ← next ls
          let ls ← readComment fuel ls
          glexLoop left ls seminfo
      else if c = byte '[' then do
        let (sep, ls) ← skipSep fuel ls
        if sep ≥ 0 then do
          let (ts, ls) ← readLongString fuel ls false sep
          pure (⟨tkString, .ts ts⟩, ls)
        else if sep = -1 then pure (⟨c.toNat, seminfo⟩, ls)
        else lexerror ls "invalid long string delimiter" tkString
      else if c = byte '=' then do
        let (token, ls) ← orEqual ls c tkEq
        pure (⟨token, seminfo⟩, ls)
      else if c = byte '<' then do
        let (token, ls) ← orEqual ls c tkLe
        pure (⟨token, seminfo⟩, ls)
      else if c = byte '>' then do
        let (token, ls) ← orEqual ls c tkGe
        pure (⟨token, seminfo⟩, ls)
      else if c = byte '~' then do
        let (token, ls) ← orEqual ls c tkNe
        pure (⟨token, seminfo⟩, ls)
      else if c = quote ∨ c = apostrophe then do
        let (ts, ls) ← readString fuel ls c
        pure (⟨tkString, .ts ts⟩, ls)
      else if c = byte '.' then do
        let ls ← saveAndNext ls
        let (second, ls) ← checkNext ls "."
        if second then do
          let (third, ls) ← checkNext ls "."
          pure (⟨if third then tkDots else tkConcat, seminfo⟩, ls)
        else if !ls.currentIs isdigit then pure (⟨c.toNat, seminfo⟩, ls)
        else do
          let (r, ls) ← readNumeral env fuel ls
          pure (⟨tkNumber, .r r⟩, ls)
      else if isspace c then do
        let ls ← next ls
        glexLoop left ls seminfo
      else if isdigit c then do
        let (r, ls) ← readNumeral env fuel ls
        pure (⟨tkNumber, .r r⟩, ls)
      else if isalpha c ∨ c = byte '_' then do
        -- identifier or reserved word
        let ls ← saveAndNext ls
        let ls ← saveWhile isalnumOrUnderscore fuel ls
        match reserved ls.buff with
        | some token => pure (⟨token, seminfo⟩, ls)
        | none => pure (⟨tkName, .ts ls.buff⟩, ls)
      else do
        -- single-char tokens (+ - / ...)
        let ls ← next ls
        pure (⟨c.toNat, seminfo⟩, ls)

/-- `glex` -/
def glex (ls : LexState N) (seminfo : SemInfo N) : LexM (Token N × LexState N) :=
  glexLoop env fuel fuel { ls with buff := [] } seminfo

/-- `gafqX_next` -/
def gafqXNext (ls : LexState N) : LexM (LexState N) :=
  let ls := { ls with lastline := ls.linenumber }
  if ls.lookahead.token ≠ tkEos then
    -- there is a look-ahead token: use this one and discharge it
    pure { ls with t := ls.lookahead, lookahead := { ls.lookahead with token := tkEos } }
  else do
    let (t, ls) ← glex env fuel ls ls.t.seminfo
    pure { ls with t := t }

/-- `gafqX_lookahead` -/
def gafqXLookahead (ls : LexState N) : LexM (LexState N) := do
  let (t, ls) ← glex env fuel ls ls.lookahead.seminfo
  pure { ls with lookahead := t }

end

end Lexer

end Gafq
