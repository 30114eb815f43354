import Gafq.Base.Checked
import Gafq.StrLib.Search

/-! # `gmemfind` on memory

`gmemfind` of `gstrlib.c` with the lengths that it is given, which it changes while it moves along `s1`.  The
functions of the C library take a range of memory, which must not reach beyond the string that it is in.
-/

namespace Gafq.StrLib

open Base Checked

section

variable (src s2 : List UInt8)

/-- `memchr` on `n` characters of the subject from `s1` on. -/
def memchrWithin (c : UInt8) (s1 n : Nat) : Checked (Option Nat) := do
  let _ ← slice src s1 n
  pure (memchr src c s1 n)

/-- `memcmp(init, s2 + 1, l2) == 0` -/
def memcmpWithin (init l2 : Nat) : Checked Bool := do
  let ours ← slice src init l2
  let theirs ← slice s2 1 l2
  pure (ours == theirs)

/-- The loop of `gmemfind`; `l2` has been decremented. -/
def memfindWithinLoop (l2 : Nat) : (fuel s1 l1 : Nat) → Checked (Option Nat)
  | 0, _, _ => .error .outOfFuel
  | fuel + 1, s1, l1 =>
    if l1 > 0 then do
      let c ← get s2 0
      match ← memchrWithin src c s1 l1 with
      | none => pure none
      | some init =>
        -- 1st char is already checked
        let init := init + 1
        if ← memcmpWithin src s2 init l2 then pure (some (init - 1))
        else
          -- correct `l1' and `s1' to try again
          let l1 ← sub l1 (init - s1)
          memfindWithinLoop l2 fuel init l1
    else pure none

/-- `gmemfind` on `l1` characters from `s1` on and the first `l2` characters of `s2`. -/
def gmemfindWithin (s1 l1 l2 : Nat) : Checked (Option Nat) :=
  -- empty strings are everywhere
  if l2 = 0 then pure (some s1)
  -- avoids a negative `l1'
  else if l2 > l1 then pure none
  else do
    -- 1st char will be checked by `memchr'
    let l2 ← sub l2 1
    -- `s2' cannot be found after that
    let l1 ← sub l1 l2
    memfindWithinLoop src s2 l2 (l1 + 1) s1 l1

end

end Gafq.StrLib
