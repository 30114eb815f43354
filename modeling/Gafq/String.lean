import Gafq.Mark

/-! # The string table

`gstring.c`.  Strings are kept in a hash table whose size is a power of two; a string that is
wanted again while the collector is about to free it is brought back to life.
-/

namespace Gafq.GC

variable {N : Type}

/-- `MINSTRTABSIZE`. -/
def minStrTabSize : Nat := 32

/-- The loop of the hash function, from the last character backwards. -/
def hashLoop (str : TString) (step : Nat) : Nat → Nat → UInt32 → UInt32
  | fuel + 1, l1, h =>
    if step ≤ l1 then
      hashLoop str step fuel (l1 - step) (h ^^^ ((h <<< 5) + (h >>> 2) + (str.getD (l1 - 1) 0).toUInt32))
    else h
  | 0, _, h => h

/-- The hash of a string; if it is too long, not all of its characters count. -/
def strhash (str : TString) : Nat :=
  (hashLoop str (str.length / 32 + 1) str.length str.length (UInt32.ofNat str.length)).toNat

/-- `lmod` for a size that is a power of two. -/
def lmod (h size : Nat) : Nat := h &&& (size - 1)

/-- Chain an entry. -/
def chain (hash : List (List Nat)) (i a : Nat) : List (List Nat) := hash.modify i (a :: ·)

namespace State

/-- The bucket for a string in a table of some size. -/
def bucket (s : State N) (size a : Nat) : Nat := lmod (strhash (s.string a)) size

/-- `gafqS_resize`. -/
def resizestrt (s : State N) (newsize : Nat) : State N :=
  -- cannot resize during GC traverse
  if s.gcstate = .sweepstring then s
  else
    { s with
      strt := s.strt.flatten.foldl (fun hash a => chain hash (s.bucket newsize a) a) (List.replicate newsize []) }

/-- `strt.nuse`. -/
def nuse (s : State N) : Nat := s.strt.flatten.length

/-- The static `newlstr` at an address. -/
def newstring (s : State N) (str : TString) (fresh : Nat) : State N :=
  let s := s.marknew (.string fresh)
  let s := { s with string := Function.update s.string fresh str }
  let s := { s with strt := chain s.strt (s.bucket s.strt.length fresh) fresh }
  -- too crowded
  if s.strt.length < s.nuse ∧ s.strt.length ≤ (2 ^ 31 - 1) / 2 then s.resizestrt (s.strt.length * 2) else s

/-- `gafqS_newlstr`: the string and the state; `fresh` is the address for a new one. -/
def newlstr (s : State N) (str : TString) (fresh : Nat) : Nat × State N :=
  let bucket := s.strt.getD (lmod (strhash str) s.strt.length) []
  match bucket.find? fun a => s.string a == str with
  | some a =>
    -- string may be dead
    (a, if s.isdead (.string a) then s.changewhite (.string a) else s)
  | none => (fresh, s.newstring str fresh)

end State

/-- The list with `o` behind the first occurrence of `p`. -/
def insertAfter (p o : GCRef) : List GCRef → List GCRef
  | [] => []
  | q :: rest => if q = p then q :: o :: rest else q :: insertAfter p o rest

namespace State

/-- Chain userdata on the udata list (after main thread). -/
def linkudata (s : State N) (a : Nat) : State N :=
  let main := GCRef.thread s.mainthread
  if s.swept.getLast? = some main then { s with unswept := .udata a :: s.unswept }
  else if main ∈ s.swept then { s with swept := insertAfter main (.udata a) s.swept }
  else { s with unswept := insertAfter main (.udata a) s.unswept }

/-- `gafqS_newudata`. -/
def newudata (s : State N) (env fresh : Nat) : State N :=
  let s := s.marknew (.udata fresh)
  let s := s.setUdata fresh { env }
  s.linkudata fresh

end State

end Gafq.GC
