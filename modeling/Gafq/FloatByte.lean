import Gafq.Base.Checked

/-! # Floating point bytes

`gafqO_fb2int` of `gobject.c`, with which `OP_NEWTABLE` gets the sizes of a new table back from its operands.
-/

namespace Gafq

open Base

/-- `gafqO_fb2int`; the shift is one of `int`. -/
def fb2int (x : Nat) : Checked Int :=
  let e := (x >>> 3) &&& 31
  if e = 0 then Checked.int x else Checked.int ((((x &&& 7) + 8) <<< (e - 1) : Nat) : Int)

end Gafq
