import Gafq.StrLib.Pattern
import Gafq.Verified.PlainSearch

/-! # How the matcher reads a single character class

`classend` finds the end of a class that is written as in a well-formed pattern, and `singlematch` tells
whether a character is in it.
-/

namespace Gafq.StrLib

open Base

variable {src : List UInt8} {pat : CString} {s p ep : Nat} {c : UInt8} {text rest : List UInt8}

/-! ## Reading a text -/

/-- The pattern goes on with `text` at `p`. -/
def ReadsAt (pat : CString) (p : Nat) (text : List UInt8) : Prop := p ≤ pat.chars.length ∧ pat.chars.drop p = text

theorem ReadsAt.head (reads : ReadsAt pat p text) : readAt pat.chars p = .ok (text.headD 0) := by
  rw [readAt_eq reads.1, reads.2]

theorem ReadsAt.tail (reads : ReadsAt pat p (c :: text)) : ReadsAt pat (p + 1) text :=
  ⟨lt_of_drop reads.2, drop_succ reads.2⟩

theorem ReadsAt.skip (reads : ReadsAt pat p (text ++ rest)) : ReadsAt pat (p + text.length) rest := by
  have length := congrArg List.length reads.2
  simp only [List.length_drop, List.length_append] at length
  have inside := reads.1
  refine ⟨by omega, ?_⟩
  rw [← List.drop_drop, reads.2, List.drop_left]

theorem ReadsAt.length (reads : ReadsAt pat p text) : pat.chars.length = p + text.length := by
  have length := congrArg List.length reads.2
  simp only [List.length_drop] at length
  have inside := reads.1
  omega

/-! ## Escapes -/

variable {neg : Bool} {items : List SetItem}

variable {x : Single}

end Gafq.StrLib
