import Gafq.StrLib.Search

/-! # Patterns

What a pattern is, apart from the characters that the matcher reads: a sequence of items, each of them
with the characters it is written with.  A match is described by the number of times each single
character class is repeated, and these numbers are what one match is preferred to another for.
-/

namespace Gafq.StrLib

/-! ## Items -/

/-- The characters that the letter of a class stands for. -/
def classOf (letter : UInt8) : Option (UInt8 → Bool) :=
  [(byte 'a', isalpha), (byte 'c', iscntrl), (byte 'd', isdigit), (byte 'l', islower), (byte 'p', ispunct), (byte 's', isspace),
    (byte 'u', isupper), (byte 'w', isalnum), (byte 'x', isxdigit), (byte 'z', (· == 0))].lookup letter

/-- `%cl`: a class, its complement if the letter is in upper case, or the character itself. -/
def escapeMem (cl c : UInt8) : Bool :=
  match classOf (tolower cl) with
  | some holds => if islower cl then holds c else !holds c
  | none => c == cl

/-- A component of a set. -/
inductive SetItem where
  | char (c : UInt8)
  /-- `%cl` -/
  | escape (cl : UInt8)
  | range (lo hi : UInt8)
deriving DecidableEq, Repr

namespace SetItem

def chars : SetItem → List UInt8
  | .char c => [c]
  | .escape cl => [byte '%', cl]
  | .range lo hi => [lo, byte '-', hi]

def mem (c : UInt8) : SetItem → Bool
  | .char d => d == c
  | .escape cl => escapeMem cl c
  | .range lo hi => lo ≤ c && c ≤ hi

end SetItem

def setChars (items : List SetItem) : List UInt8 := items.flatMap SetItem.chars

/-- `[set]`, or `[^set]` if `neg`. -/
def setText (neg : Bool) (items : List SetItem) : List UInt8 :=
  byte '[' :: ((if neg then [byte '^'] else []) ++ (setChars items ++ [byte ']']))

def setMem (neg : Bool) (items : List SetItem) (c : UInt8) : Bool := items.any (SetItem.mem c) != neg

/-- A single character class. -/
inductive Single where
  | any
  | char (c : UInt8)
  | escape (cl : UInt8)
  | set (neg : Bool) (items : List SetItem)
deriving DecidableEq, Repr

namespace Single

def chars : Single → List UInt8
  | .any => [byte '.']
  | .char c => [c]
  | .escape cl => [byte '%', cl]
  | .set neg items => setText neg items

def mem (c : UInt8) : Single → Bool
  | .any => true
  | .char d => d == c
  | .escape cl => escapeMem cl c
  | .set neg items => setMem neg items c

end Single

/-- How often a single character class is repeated. -/
inductive Repetition where
  | one | optional | star | plus | minus
deriving DecidableEq, Repr

namespace Repetition

def chars : Repetition → List UInt8
  | .one => []
  | .optional => [byte '?']
  | .star => [byte '*']
  | .plus => [byte '+']
  | .minus => [byte '-']

def Allows : Repetition → Nat → Prop
  | .one, n => n = 1
  | .optional, n => n ≤ 1
  | .star, _ | .minus, _ => True
  | .plus, n => 1 ≤ n

/-- `n` repetitions are preferred to `m`. -/
def Prefers : Repetition → Nat → Nat → Prop
  | .minus, n, m => n < m
  | _, n, m => m < n

end Repetition

inductive Item where
  | single (x : Single) (r : Repetition)
  | openCapture
  | closeCapture
  | positionCapture
  /-- `%d` for a digit `d` -/
  | backReference (d : UInt8)
  /-- `%b` -/
  | balance (b e : UInt8)
  /-- `%f` -/
  | frontier (neg : Bool) (items : List SetItem)
deriving DecidableEq, Repr

def Item.chars : Item → List UInt8
  | .single x r => x.chars ++ r.chars
  | .openCapture => [byte '(']
  | .closeCapture => [byte ')']
  | .positionCapture => [byte '(', byte ')']
  | .backReference d => [byte '%', d]
  | .balance b e => [byte '%', byte 'b', b, e]
  | .frontier neg items => byte '%' :: byte 'f' :: setText neg items

/-- The characters of a pattern; an anchored one ends with `$`. -/
def patternChars (anchored : Bool) (items : List Item) : List UInt8 :=
  items.flatMap Item.chars ++ if anchored then [byte '$'] else []

/-! ## Well-formed patterns -/

/-- The component may stand there; only as the first one may it begin with `]`. -/
def SetItem.Fits (first : Bool) : SetItem → Prop
  | .char c => c ≠ 0 ∧ c ≠ byte '%' ∧ (first = false → c ≠ byte ']')
  | .escape cl => cl ≠ 0
  | .range lo hi => lo ≠ 0 ∧ lo ≠ byte '%' ∧ (first = false → lo ≠ byte ']') ∧ hi ≠ 0 ∧ hi ≠ byte '%' ∧ hi ≠ byte ']'

/-- A character and the text after it would be read as a range. -/
def BeginsRange (text : List UInt8) : Prop := text.head? = some (byte '-') ∧ 2 ≤ text.length

/-- The components of a set, from the first one on or not. -/
def SetFits : Bool → List SetItem → Prop
  | _, [] => True
  | first, x :: items =>
    x.Fits first ∧ (∀ c, x = .char c → ¬ BeginsRange (setChars items)) ∧ SetFits false items

def SetWellFormed (neg : Bool) (items : List SetItem) : Prop :=
  items ≠ [] ∧ SetFits true items ∧ (neg = false → (setChars items).head? ≠ some (byte '^'))

def Single.WellFormed : Single → Prop
  | .any => True
  | .char c => c ≠ 0 ∧ c ≠ byte '.' ∧ c ≠ byte '%' ∧ c ≠ byte '[' ∧ c ≠ byte '(' ∧ c ≠ byte ')'
  | .escape cl => cl ≠ 0 ∧ cl ≠ byte 'b' ∧ cl ≠ byte 'f' ∧ isdigit cl = false
  | .set neg items => SetWellFormed neg items

/-- The last capture that is open; `opens` says which captures are. -/
def LastOpen (opens : List Bool) (l : Nat) : Prop :=
  l < opens.length ∧ opens.getD l false = true ∧ ∀ j, l < j → opens.getD j false = false

def suffixes : List UInt8 := "?*+-".toList.map byte

/-- The rest of a pattern is well formed when it is read after the captures of which `opens` says whether
they are open. -/
def WellFormed (anchored : Bool) : List Bool → List Item → Prop
  | opens, [] => ∀ isOpen ∈ opens, isOpen = false
  | opens, .single x r :: rest =>
    x.WellFormed ∧
    -- nothing after the class would be read as its suffix
    (r = .one → ∀ c, (patternChars anchored rest).head? = some c → c ∉ suffixes) ∧
    -- a `$` at the end is not a character
    (x = .char (byte '$') → r = .one → patternChars anchored rest ≠ []) ∧
    WellFormed anchored opens rest
  | opens, .openCapture :: rest =>
    opens.length < maxCaptures ∧ (patternChars anchored rest).head? ≠ some (byte ')') ∧
    WellFormed anchored (opens ++ [true]) rest
  | opens, .positionCapture :: rest => opens.length < maxCaptures ∧ WellFormed anchored (opens ++ [false]) rest
  | opens, .closeCapture :: rest => ∃ l, LastOpen opens l ∧ WellFormed anchored (opens.set l false) rest
  | opens, .backReference d :: rest =>
    isdigit d = true ∧ byte '1' ≤ d ∧ opens[d.toNat - (byte '1').toNat]? = some false ∧ WellFormed anchored opens rest
  | opens, .balance b e :: rest => b ≠ 0 ∧ e ≠ 0 ∧ WellFormed anchored opens rest
  | opens, .frontier neg items :: rest => SetWellFormed neg items ∧ WellFormed anchored opens rest

/-! ## Matches -/

section

variable (src : List UInt8)

/-- The `n` characters from `s` on are in the class. -/
def Span (x : Single) (s n : Nat) : Prop := ∀ i < n, s + i < src.length ∧ x.mem (src.getD (s + i) 0) = true

instance (x : Single) (s n : Nat) : Decidable (Span src x s n) := by
  unfold Span
  infer_instance

/-- How deep the characters of `w` nest after a first `b`. -/
def nesting (b e : UInt8) (w : List UInt8) : Int := w.foldl (fun n c => if c = e then n - 1 else if c = b then n + 1 else n) 1

/-- The segment from `s` up to `t` is balanced. -/
def Balanced (b e : UInt8) (s t : Nat) : Prop :=
  src[s]? = some b ∧ s < t ∧ t ≤ src.length ∧ nesting b e (segment src (s + 1) t) = 0 ∧
  ∀ u, s < u → u < t → 0 < nesting b e (segment src (s + 1) u)

/-- The character before `s`, or a NUL. -/
def charBefore (s : Nat) : UInt8 := if s = 0 then 0 else src.getD (s - 1) 0

/-- The captures that are open. -/
def openCaptures (caps : List Capture) : List Bool := caps.map fun x => x.len = .unfinished

/-- The items match from `s` up to `e`, with the repetitions in `choices`; the captures are `caps` before and
`caps'` after them. -/
def Matches (anchored : Bool) : List Item → Nat → List Capture → List Nat → Nat → List Capture → Prop
  | [], s, caps, choices, e, caps' => choices = [] ∧ e = s ∧ caps' = caps ∧ (anchored = true → s = src.length)
  | .single x r :: rest, s, caps, choices, e, caps' =>
    ∃ n others, choices = n :: others ∧ r.Allows n ∧ Span src x s n ∧ Matches anchored rest (s + n) caps others e caps'
  | .openCapture :: rest, s, caps, choices, e, caps' =>
    Matches anchored rest s (caps ++ [⟨s, .unfinished⟩]) choices e caps'
  | .positionCapture :: rest, s, caps, choices, e, caps' =>
    Matches anchored rest s (caps ++ [⟨s, .position⟩]) choices e caps'
  | .closeCapture :: rest, s, caps, choices, e, caps' =>
    ∃ l x, LastOpen (openCaptures caps) l ∧ caps[l]? = some x ∧
      Matches anchored rest s (caps.set l ⟨x.init, .finished (s - x.init)⟩) choices e caps'
  | .backReference d :: rest, s, caps, choices, e, caps' =>
    ∃ init len, caps[d.toNat - (byte '1').toNat]? = some ⟨init, .finished len⟩ ∧ s + len ≤ src.length ∧
      segment src init (init + len) = segment src s (s + len) ∧ Matches anchored rest (s + len) caps choices e caps'
  | .balance b e' :: rest, s, caps, choices, e, caps' =>
    ∃ t, Balanced src b e' s t ∧ Matches anchored rest t caps choices e caps'
  | .frontier neg items :: rest, s, caps, choices, e, caps' =>
    setMem neg items (charBefore src s) = false ∧ setMem neg items (src.getD s 0) = true ∧
      Matches anchored rest s caps choices e caps'

/-- The repetitions `choices` come before `others` in the order of priority. -/
def Better : List Item → List Nat → List Nat → Prop
  | .single _ r :: rest, n :: choices, m :: others => r.Prefers n m ∨ n = m ∧ Better rest choices others
  | .single _ _ :: _, _, _ => False
  | _ :: rest, choices, others => Better rest choices others
  | [], _, _ => False

/-- `r` is the first match in the order of priority, `none` if there is none. -/
def FirstMatch (anchored : Bool) (items : List Item) (s : Nat) (caps : List Capture) : Option (Nat × List Capture) → Prop
  | none => ∀ choices e caps', ¬ Matches src anchored items s caps choices e caps'
  | some (e, caps') => ∃ choices, Matches src anchored items s caps choices e caps' ∧
      ∀ others e' caps'', Matches src anchored items s caps others e' caps'' → others = choices ∨ Better items choices others

end

end Gafq.StrLib
