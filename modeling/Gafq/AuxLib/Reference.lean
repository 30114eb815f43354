import Gafq.TabLib.Insert

/-! # References

`gafqL_ref` and `gafqL_unref` of `gauxlib.c`, on a raw table.  The references that are free are on a list that
starts at `t[0]` and goes through the table itself; a reference is an `int`.
-/

namespace Gafq.AuxLib

open TabLib

variable {N : Type} [GafqNumber N] (mp : MainPosition N)

/-- `FREELIST_REF` -/
def freelistRef : Int := 0

/-- `GAFQ_REFNIL` -/
def refnil : Int := -1

/-- `gafq_tointeger`, as an `int`; strings are converted by `gafqO_str2d`. -/
def tointeger (str2d : Nat → Option N) : TValue N → Int
  | .number n => number2int n
  | .string s => ((str2d s).map number2int).getD 0
  | _ => 0

/-- `ref++`, where `int` wraps around. -/
def increment (ref : Int) : Int := Table.toInt ((ref + 1) % 2 ^ 32).toNat

variable (str2d : Nat → Option N) (mem : Memory) (depth : Nat)

/-- `gafqL_ref` of a value. -/
def ref (fuel : Nat) (v : TValue N) : TabM N Int := do
  if v.isNil then
    -- `nil' has a unique fixed reference
    pure refnil
  else do
    -- get first free element
    let t ← get
    let r := tointeger str2d (rawgeti mp t freelistRef)
    if r ≠ 0 then do
      -- remove it from list
      raw (rawseti mp depth mem freelistRef (rawgeti mp t r))
      raw (rawseti mp depth mem r v)
      pure r
    else do
      -- create new reference
      let n ← auxGetn mp fuel
      raw (rawseti mp depth mem (increment n) v)
      pure (increment n)

/-- `gafqL_unref` -/
def unref (r : Int) : TabM N Unit := do
  if r ≥ 0 then
    let t ← get
    -- t[ref] = t[FREELIST_REF]
    raw (rawseti mp depth mem r (rawgeti mp t freelistRef))
    -- t[FREELIST_REF] = ref
    raw (rawseti mp depth mem freelistRef (.number (castNum r)))

end Gafq.AuxLib
