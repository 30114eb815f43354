import Gafq.Base.Interaction

/-! # `table.sort`

The quicksort of `gtablib.c`.  The elements are read and written through `gafq_rawgeti` and `gafq_rawseti`,
which also reach keys outside the array.  Nothing is known about the comparison: it answers, or it raises an
error, and it leaves the table alone.

The recursion and the loop that replaces one of the recursive calls are cut by a depth.
-/

namespace Gafq.TabLib

open Base (Interaction)

/-- Where a comparison is made. -/
inductive Site where
  /-- `a[u] < a[l]` -/
  | ends
  /-- `a[i] < a[l]`, for the middle -/
  | low
  /-- `a[u] < a[i]`, for the middle -/
  | high
  /-- `a[i] < P`, while a scan of the range from `l` to `u` goes up -/
  | up (l u i : Int)
  /-- `P < a[j]`, while a scan of the range from `l` to `u` goes down -/
  | down (l u j : Int)
deriving DecidableEq, Repr

/-- `sort_comp` asks whether `a` is less than `b`; the site is only noted. -/
structure Comparison (V : Type) where
  site : Site
  a : V
  b : V

inductive SortError where
  /-- the comparison has raised an error -/
  | comparison
  /-- `invalid order function for sorting` -/
  | invalidOrder
  /-- the depth is too small -/
  | depth
deriving DecidableEq, Repr

/-- The table, and the keys that have been read or written. -/
structure Sorting (V : Type) where
  a : Int → V
  keys : List Int

namespace Sorting

variable {V : Type}

/-- `gafq_rawgeti` -/
def rawgeti (s : Sorting V) (k : Int) : V × Sorting V := (s.a k, { s with keys := k :: s.keys })

/-- `gafq_rawseti` -/
def rawseti (s : Sorting V) (k : Int) (v : V) : Sorting V := ⟨Function.update s.a k v, k :: s.keys⟩

/-- `set2`, where `v` is on the top of the stack and `w` below it. -/
def set2 (s : Sorting V) (i j : Int) (v w : V) : Sorting V := (s.rawseti i v).rawseti j w

end Sorting

/-- A program that sorts; the comparison answers, or raises an error. -/
abbrev SortM (V α : Type) := Interaction (Comparison V) (Option Bool) (SortError × Sorting V) α

/-- An `int` after an addition. -/
def wrapInt (k : Int) : Int := (k + 2 ^ 31) % 2 ^ 32 - 2 ^ 31

/-- `(l+u)/2` -/
def middle (l u : Int) : Int := (wrapInt (l + u)).tdiv 2

variable {V : Type}

/-- `sort_comp` -/
def sortComp (site : Site) (a b : V) (s : Sorting V) : SortM V Bool := do
  match ← .request ⟨site, a, b⟩ with
  | some res => return res
  | none => .fail (.comparison, s)

/-- Repeat `++i` until `a[i] >= P`. -/
def scanUp (l u : Int) (p : V) (i : Int) (s : Sorting V) : SortM V (Int × V × Sorting V) :=
  let i := i + 1
  let (v, s) := s.rawgeti i
  sortComp (.up l u i) v p s >>= fun less =>
    if less then
      if u < i then .fail (.invalidOrder, s) else scanUp l u p i s
    else .done (i, v, s)
termination_by (u + 1 - i).toNat
decreasing_by omega

/-- Repeat `--j` until `a[j] <= P`. -/
def scanDown (l u : Int) (p : V) (j : Int) (s : Sorting V) : SortM V (Int × V × Sorting V) :=
  let j := j - 1
  let (v, s) := s.rawgeti j
  sortComp (.down l u j) p v s >>= fun less =>
    if less then
      if j < l then .fail (.invalidOrder, s) else scanDown l u p j s
    else .done (j, v, s)
termination_by (j - (l - 1)).toNat
decreasing_by omega

/-- The loop that splits a range by the pivot: where it ends going up.  Every iteration but the last brings
`i` and `j` closer together. -/
def splitLoop (l u : Int) (p : V) : Nat → Int → Int → Sorting V → SortM V (Int × Sorting V)
  | 0, _, _, s => .fail (.depth, s)
  | left + 1, i, j, s => do
    let (i, v, s) ← scanUp l u p i s
    let (j, w, s) ← scanDown l u p j s
    if j < i then return (i, s)
    else splitLoop l u p left i j (s.set2 i j w v)

/-- Sort `a[l]` and `a[u]`. -/
def sortEnds (l u : Int) (s : Sorting V) : SortM V (Sorting V) := do
  let (v, s) := s.rawgeti l
  let (w, s) := s.rawgeti u
  if ← sortComp .ends w v s then return s.set2 l u w v else return s

/-- Bring `a[i]` between `a[l]` and `a[u]`. -/
def sortMiddle (l u i : Int) (s : Sorting V) : SortM V (Sorting V) := do
  let (x, s) := s.rawgeti i
  let (v, s) := s.rawgeti l
  if ← sortComp .low x v s then return s.set2 i l v x
  else
    let (w, s) := s.rawgeti u
    if ← sortComp .high w x s then return s.set2 i u w x else return s

/-- Put the pivot, which is in the middle, to `u-1`; split the range by it and put it where it belongs. -/
def partitionRange (l u i : Int) (s : Sorting V) : SortM V (Int × Sorting V) := do
  let (p, s) := s.rawgeti i
  let (x, s) := s.rawgeti (u - 1)
  let s := s.set2 i (u - 1) x p
  let (i, s) ← splitLoop l u p (u - l).toNat l (u - 1) s
  let (x, s) := s.rawgeti (u - 1)
  let (y, s) := s.rawgeti i
  -- swap pivot (a[u-1]) with a[i]
  return (i, s.set2 (u - 1) i y x)

/-- `auxsort` -/
def auxsort : Nat → Int → Int → Sorting V → SortM V (Sorting V)
  | 0, _, _, s => .fail (.depth, s)
  | depth + 1, l, u, s =>
    if l < u then do
      let s ← sortEnds l u s
      -- only 2 elements
      if u - l = 1 then return s
      let i := middle l u
      let s ← sortMiddle l u i s
      -- only 3 elements
      if u - l = 2 then return s
      let (i, s) ← partitionRange l u i s
      -- call recursively the smaller one, repeat the routine for the larger one
      if i - l < u - i then
        let s ← auxsort depth l (i - 1) s
        auxsort depth (i + 1) u s
      else
        let s ← auxsort depth (i + 1) u s
        auxsort depth l (i - 1) s
    else return s

/-- `sort`, for an array of `n` elements. -/
def sort (depth : Nat) (n : Int) (a : Int → V) : SortM V (Sorting V) := auxsort depth 1 n ⟨a, []⟩

end Gafq.TabLib
