import Gafq.Value
import Gafq.Base.Links

/-! # Tables

`gtable.c`.  The two vectors of a table are functions from positions, next to their sizes as in
the C structure; a pointer to a `TValue` of a table is a `Slot`, and a pointer to a `Node` is its
position.  `t->lastfree` may point below the vector and is an integer.

The operations change the table also when they end in an error, so they are `EStateM` programs.
`mainposition` is a parameter: a function of the size of the node vector and of the key that does
not tell equal keys apart.  Whether an allocation succeeds is decided by a `Memory`.

`newkey` calls `rehash`, which inserts all entries again through `gafqH_set` and so through
`newkey`.  The recursion is cut by a depth: at depth zero a `newkey` that wants to rehash is
`stuck`, which never happens at the depth the public operations start with.
-/

namespace Gafq

open Base

variable {N : Type}

structure Node (N : Type) where
  key : TValue N := .nil
  val : TValue N := .nil
  next : Option Nat := none
deriving Inhabited

structure Table (N : Type) where
  array : Nat → TValue N
  sizearray : Nat
  node : Nat → Node N
  /-- log2 of the size of `node` -/
  lsizenode : Nat
  /-- `t->node == dummynode` -/
  isDummy : Bool
  /-- any free position is before this position -/
  lastfree : Int
  /-- `1 << p` means that tag method `p` is not present -/
  flags : UInt8

inductive Slot where
  | array (i : Nat)
  | node (i : Nat)
  /-- `gafqO_nilobject` -/
  | nilobject
deriving DecidableEq, Repr

inductive TableError where
  | indexNil
  | indexNaN
  | tableOverflow
  | memory
  /-- a rehash inside a rehash, or a colliding node outside its own chain -/
  | stuck
deriving DecidableEq, Repr

/-- Which allocations of a resize succeed. -/
structure Memory where
  array : Bool := true
  nodes : Bool := true
  shrink : Bool := true
deriving DecidableEq, Repr

abbrev TableM (N : Type) := EStateM TableError (Table N)

/-- Maximum size of the array part is `2^maxBits`. -/
def maxBits : Nat := 26

def maxASize : Nat := 2 ^ maxBits

namespace Table

def sizenode (t : Table N) : Nat := 2 ^ t.lsizenode

def next (t : Table N) (i : Nat) : Option Nat := (t.node i).next

def read (t : Table N) : Slot → TValue N
  | .array i => t.array i
  | .node i => (t.node i).val
  | .nilobject => .nil

/-- Store a value through the pointer that a `set` function returned. -/
def write (t : Table N) (s : Slot) (v : TValue N) : Table N :=
  match s with
  | .array i => { t with array := Function.update t.array i v }
  | .node i => { t with node := Function.update t.node i { t.node i with val := v } }
  | .nilobject => t

end Table

variable [GafqNumber N]

/-- `mainposition`, for a node vector of size `2^l`. -/
structure MainPosition (N : Type) [GafqNumber N] where
  pos : Nat → TValue N → Nat
  pos_lt : ∀ l key, pos l key < 2 ^ l
  pos_congr : ∀ l {key key'}, rawequalObj key key' = true → pos l key = pos l key'

/-- `hashmod`. -/
def hashmod (l n : Nat) : Nat := n % ((2 ^ l - 1) ||| 1)

/-- `hashpow2`. -/
def hashpow2 (l n : Nat) : Nat := n % 2 ^ l

/-- `mainposition` as the source computes it, from the `hash` field of a string, the address of an
object and the sum of the words of a number. -/
def mainposition (strhash address : Nat → Nat) (words : N → Nat) (l : Nat) : TValue N → Nat
  | .number n => if numeq n (castNum 0) then 0 else hashmod l (words n)
  | .string s => hashpow2 l (strhash s)
  | .boolean b => hashpow2 l (if b then 1 else 0)
  | .lightuserdata p => hashmod l p
  | .object _ o | .deadkey o => hashmod l (address o)
  | .nil => hashmod l 0

/-- `ttisnumber(key) && gafqi_numisnan(nvalue(key))`. -/
def TValue.isNaN : TValue N → Bool
  | .number n => !numeq n n
  | _ => false

/-- `ttisnumber(gkey(n)) && gafqi_numeq(nvalue(gkey(n)), nk)`. -/
def TValue.isNumber (nk : N) : TValue N → Bool
  | .number n => numeq n nk
  | _ => false

/-- `ttisstring(gkey(n)) && rawtsvalue(gkey(n)) == key`. -/
def TValue.isString (key : Nat) : TValue N → Bool
  | .string s => s == key
  | _ => false

/-- The index for a key that may live in the array part, `-1` for other keys. -/
def arrayindex : TValue N → Int
  | .number n => if numeq (castNum (number2int n)) n then number2int n else -1
  | _ => -1

namespace Table

variable (mp : MainPosition N)

/-! ## Search -/

/-- Search the chain that starts at position `i` for a key that passes the test. -/
def search (t : Table N) (test : TValue N → Bool) (i : Nat) : Slot :=
  match walk t.next (fun i => test (t.node i).key) t.sizenode i with
  | some i => .node i
  | none => .nilobject

def getnum (t : Table N) (key : Int) : Slot :=
  if 1 ≤ key ∧ key ≤ t.sizearray then .array (key - 1).toNat
  else
    t.search (TValue.isNumber (castNum key)) (mp.pos t.lsizenode (.number (castNum key)))

def getstr (t : Table N) (key : Nat) : Slot :=
  t.search (TValue.isString key) (mp.pos t.lsizenode (.string key))

/-- `gafqH_get`. -/
def getSlot (t : Table N) (key : TValue N) : Slot :=
  match key with
  | .nil => .nilobject
  | .string s => t.getstr mp s
  | .number n =>
    if numeq (castNum (number2int n)) n then t.getnum mp (number2int n)
    else t.search (rawequalObj · key) (mp.pos t.lsizenode key)
  | _ => t.search (rawequalObj · key) (mp.pos t.lsizenode key)

/-! ## Insertion -/

/-- The loop of `getfreepos` below position `f`. -/
def getfreeposLoop (t : Table N) : Nat → Int × Option Nat
  | 0 => (-1, none)
  | f + 1 => if (t.node f).key.isNil then (f, some f) else t.getfreeposLoop f

/-- `getfreepos`: the new value of `lastfree`, and a free position below the old one. -/
def getfreepos (t : Table N) : Int × Option Nat :=
  if 0 < t.lastfree then t.getfreeposLoop t.lastfree.toNat else (t.lastfree - 1, none)

/-- The colliding node moves from `m` to the free position `n`; its predecessor is `prev`. -/
def moveNode (t : Table N) (prev m n : Nat) : Table N :=
  let node := Function.update t.node prev { t.node prev with next := some n }
  let node := Function.update node n (node m)
  { t with node := Function.update node m { node m with next := none, val := .nil } }

/-- The free position `n` joins the chain behind `m`. -/
def chainNode (t : Table N) (m n : Nat) : Table N :=
  let node := Function.update t.node n { t.node n with next := (t.node m).next }
  { t with node := Function.update node m { node m with next := some n } }

def setKey (t : Table N) (i : Nat) (key : TValue N) : Table N :=
  { t with node := Function.update t.node i { t.node i with key := key } }

/-- `newkey` when its position is taken and position `n` is free. -/
def insertAt (n : Nat) (key : TValue N) : TableM N Slot := fun t =>
  let m := mp.pos t.lsizenode key
  let othern := mp.pos t.lsizenode (t.node m).key
  if othern ≠ m then
    match walk t.next (fun i => t.next i == some m) t.sizenode othern with
    | none => .error .stuck t
    | some prev => .ok (.node m) ((t.moveNode prev m n).setKey m key)
  else .ok (.node n) ((t.chainNode m n).setKey n key)

/-- `newkey`; `grow` is the rehash and the new insertion that follows it. -/
def newkeyWith (grow : TValue N → TableM N Slot) (key : TValue N) : TableM N Slot := fun t =>
  let m := mp.pos t.lsizenode key
  if !(t.node m).val.isNil || t.isDummy then
    match t.getfreepos with
    | (lastfree, none) => grow key { t with lastfree := lastfree }
    | (lastfree, some n) => insertAt mp n key { t with lastfree := lastfree }
  else .ok (.node m) (t.setKey m key)

def setWith (grow : TValue N → TableM N Slot) (key : TValue N) : TableM N Slot := fun t =>
  let p := t.getSlot mp key
  let t := { t with flags := 0 }
  if p ≠ .nilobject then .ok p t
  else if key.isNil then .error .indexNil t
  else if key.isNaN then .error .indexNaN t
  else newkeyWith mp grow key t

def setnumWith (grow : TValue N → TableM N Slot) (key : Int) : TableM N Slot := fun t =>
  let p := t.getnum mp key
  if p ≠ .nilobject then .ok p t else newkeyWith mp grow (.number (castNum key)) t

def setstrWith (grow : TValue N → TableM N Slot) (key : Nat) : TableM N Slot := fun t =>
  let p := t.getstr mp key
  if p ≠ .nilobject then .ok p t else newkeyWith mp grow (.string key) t

end Table

/-! ## Rehash -/

/-- The loop of `computesizes`, with the size and the count of the array part. -/
def computesizesLoop (nums : Nat → Nat) (narray : Nat) : Nat → Nat → Nat → Nat → Nat → Nat × Nat
  | 0, _, _, na, n => (n, na)
  | fuel + 1, i, a, na, n =>
    if 2 ^ i / 2 < narray then
      let a := a + nums i
      -- more than half of the elements present?
      let fits := 0 < nums i ∧ 2 ^ i / 2 < a
      let na := if fits then a else na
      let n := if fits then 2 ^ i else n
      if a = narray then (n, na) else computesizesLoop nums narray fuel (i + 1) a na n
    else (n, na)

/-- `computesizes`: the optimal size of the array part, and how many keys go there. -/
def computesizes (nums : Nat → Nat) (narray : Nat) : Nat × Nat :=
  computesizesLoop nums narray (narray + 1) 0 0 0 0

def countint (key : TValue N) (nums : Nat → Nat) : (Nat → Nat) × Nat :=
  let k := arrayindex key
  if 0 < k ∧ k ≤ maxASize then
    (Function.update nums (ceillog2 k.toNat) (nums (ceillog2 k.toNat) + 1), 1)
  else (nums, 0)

namespace Table

/-- The slices `lg, lg + 1, ...` of `numusearray`; `i` is the first key not yet looked at. -/
def numusearrayLoop (t : Table N) : Nat → Nat → Nat → (Nat → Nat) × Nat → (Nat → Nat) × Nat
  | 0, _, _, acc => acc
  | slices + 1, lg, i, (nums, ause) =>
    let lim := min (2 ^ lg) t.sizearray
    if t.sizearray < 2 ^ lg ∧ lim < i then (nums, ause)
    else
      let lc := (List.range' i (lim + 1 - i)).countP fun j => !(t.array (j - 1)).isNil
      t.numusearrayLoop slices (lg + 1) (max i (lim + 1)) (Function.update nums lg (nums lg + lc), ause + lc)

def numusearray (t : Table N) (nums : Nat → Nat) : (Nat → Nat) × Nat :=
  t.numusearrayLoop (maxBits + 1) 0 1 (nums, 0)

/-- The nodes below `i`, last one first: counts, integer keys and all keys in use. -/
def numusehashLoop (t : Table N) : Nat → (Nat → Nat) × Nat × Nat → (Nat → Nat) × Nat × Nat
  | 0, acc => acc
  | i + 1, (nums, ause, totaluse) =>
    if (t.node i).val.isNil then t.numusehashLoop i (nums, ause, totaluse)
    else
      let (nums, c) := countint (t.node i).key nums
      t.numusehashLoop i (nums, ause + c, totaluse + 1)

def numusehash (t : Table N) (nums : Nat → Nat) : (Nat → Nat) × Nat × Nat :=
  t.numusehashLoop t.sizenode (nums, 0, 0)

def setarrayvector (ok : Bool) (size : Nat) : TableM N Unit := fun t =>
  if ok then
    .ok () { t with array := fun i => if i < t.sizearray then t.array i else .nil, sizearray := size }
  else .error .memory t

def setnodevector (ok : Bool) (size : Nat) : TableM N Unit := fun t =>
  if size = 0 then .ok () { t with node := fun _ => {}, isDummy := true, lsizenode := 0, lastfree := 0 }
  else
    let lsize := ceillog2 size
    if maxBits < lsize then .error .tableOverflow t
    else if ok then
      .ok () { t with node := fun _ => {}, isDummy := false, lsizenode := lsize, lastfree := (2 ^ lsize : Nat) }
    else .error .memory t

variable (mp : MainPosition N)

/-- `setobjt2t` of a value into the slot that an insertion returns. -/
def storeAt (insertion : TableM N Slot) (v : TValue N) : TableM N Unit := do
  let slot ← insertion
  modify (·.write slot v)

/-- Re-insert `n` elements from the vanishing slice of the array, from index `i` on. -/
def reinsertArray (grow : TValue N → TableM N Slot) : Nat → Nat → TableM N Unit
  | _, 0 => pure ()
  | i, n + 1 => do
    let t ← get
    if !(t.array i).isNil then storeAt (setnumWith mp grow ((i : Int) + 1)) (t.array i)
    reinsertArray grow (i + 1) n

/-- Re-insert the first `i` nodes of the old hash part, last one first. -/
def reinsertNodes (grow : TValue N → TableM N Slot) (nold : Nat → Node N) : Nat → TableM N Unit
  | 0 => pure ()
  | i + 1 => do
    if !(nold i).val.isNil then storeAt (setWith mp grow (nold i).key) (nold i).val
    reinsertNodes grow nold i

/-- The array part must grow? -/
def growArray (ok : Bool) (nasize : Nat) : TableM N Unit := fun t =>
  if t.sizearray < nasize then setarrayvector ok nasize t else .ok () t

/-- Reallocation of the array to its new size; freeing it altogether cannot fail. -/
def shrinkVector (ok : Bool) (nasize : Nat) : TableM N Unit := fun t =>
  if 0 < nasize ∧ ok = false then .error .memory t else .ok () t

/-- The array part must shrink? -/
def shrinkArray (grow : TValue N → TableM N Slot) (ok : Bool) (oldasize nasize : Nat) : TableM N Unit := fun t =>
  if nasize < oldasize then
    (reinsertArray mp grow nasize (oldasize - nasize) >>= fun _ => shrinkVector ok nasize) { t with sizearray := nasize }
  else .ok () t

def resizeWith (grow : TValue N → TableM N Slot) (mem : Memory) (nasize nhsize : Nat) : TableM N Unit := do
  let old ← get
  growArray mem.array nasize
  -- create new hash part with appropriate size
  setnodevector mem.nodes nhsize
  shrinkArray mp grow mem.shrink old.sizearray nasize
  reinsertNodes mp grow old.node old.sizenode

/-- The sizes that `rehash` asks for. -/
def rehashSizes (t : Table N) (ek : TValue N) : Nat × Nat :=
  let (nums, nasize) := t.numusearray fun _ => 0
  let (nums, ause, used) := t.numusehash nums
  let totaluse := nasize + used
  let (nums, c) := countint ek nums
  let (n, na) := computesizes nums (nasize + ause + c)
  (n, totaluse + 1 - na)

def rehashWith (grow : TValue N → TableM N Slot) (mem : Memory) (ek : TValue N) : TableM N Unit := do
  let t ← get
  let (nasize, nhsize) := t.rehashSizes ek
  resizeWith mp grow mem nasize nhsize

/-- `rehash` and the second insertion in `newkey`. -/
def rehashAndSet (mem : Memory) : Nat → TValue N → TableM N Slot
  | 0, _ => throw .stuck
  | depth + 1, key => do
    rehashWith mp (rehashAndSet mem depth) mem key
    setWith mp (rehashAndSet mem depth) key

/-! ## Public operations -/

/-- `gafqH_set`. -/
def setSlot (mem : Memory) (key : TValue N) : TableM N Slot := setWith mp (rehashAndSet mp mem 1) key

/-- `gafqH_setnum`. -/
def setnum (mem : Memory) (key : Int) : TableM N Slot := setnumWith mp (rehashAndSet mp mem 1) key

/-- `gafqH_setstr`. -/
def setstr (mem : Memory) (key : Nat) : TableM N Slot := setstrWith mp (rehashAndSet mp mem 1) key

/-- The table that `gafqH_new` starts from. -/
def empty : Table N where
  array _ := .nil
  sizearray := 0
  node _ := {}
  lsizenode := 0
  isDummy := true
  lastfree := 0
  flags := 255

/-- `gafqH_new`. -/
def new (mem : Memory) (narray nhash : Nat) : EStateM.Result TableError (Table N) Unit :=
  (do
    setarrayvector mem.array narray
    setnodevector mem.nodes nhash : TableM N Unit) empty

end Table

end Gafq
