import Gafq.Ctype
import Gafq.StrLib.Buffer

/-! # Formatted strings

`string.format` in `gstrlib.c`.  The format and the arguments are strings with a length; the items of the
format are handed to `sprintf`, which knows C strings only.
-/

namespace Gafq.StrLib

/-! ## Quoted strings -/

/-- What `addquoted` adds for a character. -/
def quotedChar (c : UInt8) : List UInt8 :=
  if c = quote ∨ c = backslash ∨ c = byte '\n' then [backslash, c]
  else if c = byte '\r' then [backslash, byte 'r']
  else if c = 0 then [backslash, byte '0', byte '0', byte '0']
  else [c]

/-- `addquoted` -/
def addquoted (s : List UInt8) : List UInt8 := quote :: (s.flatMap quotedChar ++ [quote])

/-! ## Items -/

/-- `L_ESC` -/
def formatEsc : UInt8 := byte '%'

/-- `FLAGS` -/
def formatFlags : List UInt8 := [byte '-', byte '+', byte ' ', byte '#', byte '0']

inductive FormatError where
  | error (msg : String)
  /-- `invalid option '%c' to 'format'` -/
  | invalidOption (c : UInt8)
  | argerror (arg : Nat) (msg : String)
deriving DecidableEq, Repr

/-- An argument; of a value that is neither a string nor a number only its type matters. -/
inductive FormatArg (N : Type) where
  | string (s : List UInt8)
  | number (n : N)
  | other (typename : String)

/-- The functions of C that convert an item, and the conversions between numbers and strings. -/
structure Sprintf (N : Type) where
  /-- `sprintf` of a number, for a format and its conversion specifier -/
  number : List UInt8 → UInt8 → N → CString
  /-- `sprintf` of a C string -/
  string : List UInt8 → CString → CString
  /-- a string without precision or width is copied -/
  string_plain : ∀ s, string [byte '%', byte 's'] s = s
  number2str : N → List UInt8
  str2number : List UInt8 → Option N

/-- The position behind a digit, if there is one. -/
def skipDigit (fmt : List UInt8) (p : Nat) : Nat := if isdigit (fmt.getD p 0) then p + 1 else p

/-- `scanformat`: the specification for `sprintf` and the position of the conversion specifier. -/
def scanformat (fmt : List UInt8) : Except FormatError (List UInt8 × Nat) :=
  -- skip flags
  let p := (fmt.takeWhile (· ∈ formatFlags)).length
  if formatFlags.length + 1 ≤ p then .error (.error "invalid format (repeated flags)")
  else
    -- skip width (2 digits at most)
    let p := skipDigit fmt (skipDigit fmt p)
    -- skip precision (2 digits at most)
    let p := if fmt.getD p 0 = byte '.' then skipDigit fmt (skipDigit fmt (p + 1)) else p
    if isdigit (fmt.getD p 0) then .error (.error "invalid format (width or precision too long)")
    else .ok (formatEsc :: (CString.ofBytes (fmt.take (p + 1))).chars, p)

/-- `addintlen` -/
def addintlen (form : List UInt8) : List UInt8 := form.dropLast ++ byte 'l' :: form.getLast?.toList

section

variable {N : Type} (conv : Sprintf N)

/-- `gafqL_checknumber` -/
def checknumber (arg : Nat) : FormatArg N → Except FormatError N
  | .number n => .ok n
  | .string s =>
    match conv.str2number s with
    | some n => .ok n
    | none => .error (.argerror arg "number expected, got string")
  | .other typename => .error (.argerror arg ("number expected, got " ++ typename))

/-- `gafqL_checkgstring` -/
def checkgstring (arg : Nat) : FormatArg N → Except FormatError (List UInt8)
  | .string s => .ok s
  | .number n => .ok (conv.number2str n)
  | .other typename => .error (.argerror arg ("string expected, got " ++ typename))

/-- The conversion specifiers of numbers. -/
def numberSpecs : List UInt8 := "diouxXeEfgG".toList.map byte

/-- The conversion specifiers of integers other than `c`. -/
def integerSpecs : List UInt8 := "diouxX".toList.map byte

/-- A format item of an argument, added to the buffer. -/
def formatItem (size : Nat) (form : List UInt8) (c : UInt8) (arg : Nat) (v : FormatArg N) (b : Buffer) :
    Except FormatError Buffer := do
  if c = byte 'c' then
    let n ← checknumber conv arg v
    return b.addgstring size (conv.number form c n).chars
  else if c ∈ numberSpecs then
    let form := if c ∈ integerSpecs then addintlen form else form
    let n ← checknumber conv arg v
    return b.addgstring size (conv.number form c n).chars
  else if c = byte 'q' then
    let s ← checkgstring conv arg v
    return b.addgstring size (addquoted s)
  else if c = byte 's' then
    let s ← checkgstring conv arg v
    -- no precision and string is too long to be formatted; keep original string
    if byte '.' ∉ form ∧ 100 ≤ s.length then return b.addvalue size s
    else return b.addgstring size (conv.string form (.ofBytes s)).chars
  else .error (.invalidOption c)

/-- The loop of `str_format`, from the rest of the format; `arg` arguments have been used, the format counted as one. -/
def formatLoop (size : Nat) (fmt : List UInt8) (arg : Nat) (args : List (FormatArg N)) (b : Buffer) :
    Except FormatError Buffer :=
  match fmt with
  | [] => .ok b
  | c :: rest =>
    if c ≠ formatEsc then formatLoop size rest arg args (b.addchar size c)
    else if rest.head? = some formatEsc then formatLoop size rest.tail arg args (b.addchar size formatEsc)
    else
      match args with
      | [] => .error (.argerror (arg + 1) "no value")
      | v :: args =>
        match scanformat rest with
        | .error e => .error e
        | .ok (form, p) =>
          match found : rest.drop p with
          -- the conversion specifier is the NUL behind the format
          | [] => .error (.invalidOption 0)
          | spec :: rest' =>
            match formatItem conv size form spec (arg + 1) v b with
            | .error e => .error e
            | .ok b => formatLoop size rest' (arg + 1) args b
termination_by fmt.length
decreasing_by
  · simp
  · rw [List.length_tail, List.length_cons]
    omega
  · have := congrArg List.length found
    simp at this
    simp
    omega

/-- `str_format` -/
def strFormat (size : Nat) (fmt : List UInt8) (args : List (FormatArg N)) : Except FormatError (List UInt8) :=
  (formatLoop conv size fmt 1 args {}).map Buffer.pushresult

end

end Gafq.StrLib
