import Gafq.Base.Checked
import Gafq.Table

/-! # Choosing the size of the array part

`computesizes` of `gtable.c` with the counters that `rehash` gives it, `int`s in an array of `MAXBITS+1`
elements.
-/

namespace Gafq

open Base

/-- The array `nums` of `rehash`. -/
def counters (nums : Nat → Nat) : List Nat := (List.range (maxBits + 1)).map nums

section

variable (nums : List Nat) (narray : Nat)

/-- The loop of `computesizes`. -/
def computesizesWithinLoop : (fuel i twotoi a na n : Nat) → Checked (Nat × Nat)
  | 0, _, _, _, _, _ => .error .outOfFuel
  | fuel + 1, i, twotoi, a, na, n =>
    if twotoi / 2 < narray then do
      let slice ← Checked.get nums i
      let (a, na, n) ←
        if slice > 0 then do
          let a ← Checked.count (a + slice)
          -- more than half elements present?  then twotoi is the optimal size (till now)
          pure (if a > twotoi / 2 then (a, a, twotoi) else (a, na, n))
        else pure (a, na, n)
      -- all elements already counted
      if a = narray then pure (n, na)
      else do
        let twotoi ← Checked.count (twotoi * 2)
        computesizesWithinLoop fuel (i + 1) twotoi a na n
    else pure (n, na)

/-- `computesizes`: the new `*narray`, and how many keys go to the array part. -/
def computesizesWithin : Checked (Nat × Nat) := computesizesWithinLoop nums narray (maxBits + 2) 0 1 0 0 0

end

variable {N : Type} [GafqNumber N]

/-- `countint` on one key after another; the keys that have been counted are added up. -/
def countKeys : List (TValue N) → (Nat → Nat) × Nat → (Nat → Nat) × Nat
  | [], counted => counted
  | key :: keys, (nums, counted) =>
    let (nums, c) := countint key nums
    countKeys keys (nums, counted + c)

end Gafq
