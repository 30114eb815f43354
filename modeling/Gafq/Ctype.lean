import Mathlib

/-! # Characters and C strings

`ctype.h` in the "C" locale, and strings that end with a NUL.
-/

namespace Gafq

/-- An ASCII character. -/
def byte (c : Char) : UInt8 := UInt8.ofNat c.toNat

/-- The double quote. -/
def quote : UInt8 := 34

def apostrophe : UInt8 := 39

def backslash : UInt8 := 92

/-! ## Classes of characters -/

def isdigit (c : UInt8) : Bool := 48 ≤ c && c ≤ 57

def isupper (c : UInt8) : Bool := 65 ≤ c && c ≤ 90

def islower (c : UInt8) : Bool := 97 ≤ c && c ≤ 122

def isalpha (c : UInt8) : Bool := isupper c || islower c

def isalnum (c : UInt8) : Bool := isalpha c || isdigit c

def iscntrl (c : UInt8) : Bool := c < 32 || c == 127

def isspace (c : UInt8) : Bool := c == 32 || (9 ≤ c && c ≤ 13)

def ispunct (c : UInt8) : Bool := 32 < c && c < 127 && !isalnum c

def isxdigit (c : UInt8) : Bool := isdigit c || (65 ≤ c && c ≤ 70) || (97 ≤ c && c ≤ 102)

def tolower (c : UInt8) : UInt8 := if isupper c then c + 32 else c

/-! ## Strings -/

/-- The characters of a C string before its NUL. -/
structure CString where
  chars : List UInt8
  noNul : 0 ∉ chars

/-- The C string at the beginning of a memory block that ends with a NUL. -/
def CString.ofBytes (bs : List UInt8) : CString where
  chars := bs.takeWhile (· != 0)
  noNul member := by simpa using List.all_eq_true.1 (List.all_takeWhile (l := bs)) 0 member

end Gafq
