import Mathlib

/-! # Buffers on the stack

The generic buffers of `gauxlib.c`, with the stack that they work on, and `gafqL_gsub`.  The top of the
stack comes first.  A step that would find something on the stack that is not a string gives `none`.
-/

namespace Gafq.AuxLib

/-- A value on the stack. -/
inductive StackValue (α : Type) where
  | string (s : List UInt8)
  | other (a : α)
deriving DecidableEq, Repr

/-- `gafqL_Buffer` and the stack of its state. -/
structure Buffer (α : Type) where
  /-- the characters before `p` in the array `buffer` -/
  chars : List UInt8
  /-- number of strings in the stack (level) -/
  lvl : Nat
  stack : List (StackValue α)
deriving DecidableEq, Repr

variable {α : Type}

/-! ## The stack -/

/-- `gafq_strlen` -/
def StackValue.strlen : StackValue α → Nat
  | .string s => s.length
  | .other _ => 0

/-- The strings on the top of the stack, the topmost last, and what is below. -/
def popStrings : (n : Nat) → List (StackValue α) → Option (List UInt8 × List (StackValue α))
  | 0, stack => some ([], stack)
  | n + 1, .string s :: stack => (popStrings n stack).map fun (below, rest) => (below ++ s, rest)
  | _ + 1, _ => none

/-- `gafq_concat` -/
def concat (n : Nat) (stack : List (StackValue α)) : Option (List (StackValue α)) :=
  (popStrings n stack).map fun (s, rest) => .string s :: rest

/-! ## Buffers -/

/-- `LIMIT`, which is `GAFQ_MINSTACK/2` -/
def limit : Nat := 20 / 2

/-- `gafqL_buffinit` -/
def buffinit (stack : List (StackValue α)) : Buffer α := ⟨[], 0, stack⟩

namespace Buffer

/-- `emptybuffer`; whether it has put something on the stack. -/
def emptybuffer (b : Buffer α) : Bool × Buffer α :=
  -- put nothing on stack
  if b.chars.length = 0 then (false, b) else (true, ⟨[], b.lvl + 1, .string b.chars :: b.stack⟩)

/-- The loop of `adjuststack`: the number of levels to concat. -/
def adjustLoop (b : Buffer α) : (left : Nat) → (toget toplen : Nat) → Nat
  | 0, toget, _ => toget
  | left + 1, toget, toplen =>
    let l := ((b.stack.drop toget).head?.map StackValue.strlen).getD 0
    if b.lvl - toget + 1 ≥ limit ∨ toplen > l then adjustLoop b left (toget + 1) (toplen + l) else toget

def adjuststack (b : Buffer α) : Option (Buffer α) :=
  if b.lvl > 1 then
    let toplen := (b.stack.head?.map StackValue.strlen).getD 0
    let toget := b.adjustLoop (b.lvl - 1) 1 toplen
    (concat toget b.stack).map fun stack => { b with stack, lvl := b.lvl - toget + 1 }
  else some b

/-- `gafqL_prepbuffer` -/
def prepbuffer (b : Buffer α) : Option (Buffer α) :=
  match b.emptybuffer with
  | (true, b) => b.adjuststack
  | (false, b) => some b

section

/- `GAFQL_BUFFERSIZE` -/
variable (size : Nat)

/-- `gafqL_addchar` -/
def addchar (b : Buffer α) (c : UInt8) : Option (Buffer α) := do
  let b ← if b.chars.length < size then some b else b.prepbuffer
  some { b with chars := b.chars ++ [c] }

/-- `gafqL_addgstring` -/
def addgstring (b : Buffer α) (s : List UInt8) : Option (Buffer α) := s.foldlM (addchar size) b

/-- `gafqL_addvalue`, of the value on the top of the stack. -/
def addvalue (b : Buffer α) : Option (Buffer α) :=
  match b.stack with
  | .string s :: below =>
    -- fit into buffer?  put it there and remove it from the stack
    if s.length ≤ size - b.chars.length then some { b with chars := b.chars ++ s, stack := below }
    else
      -- put buffer before new value
      let b := match ({ b with stack := below }).emptybuffer with
        | (_, b) => { b with stack := .string s :: b.stack }
      -- add new value into B stack
      adjuststack { b with lvl := b.lvl + 1 }
  | _ => none

/-- `gafqL_addsize`, after `written` has been written at `p`. -/
def addsize (b : Buffer α) (written : List UInt8) : Buffer α := { b with chars := b.chars ++ written }

/-- `gafqL_pushresult` -/
def pushresult (b : Buffer α) : Option (Buffer α) :=
  let (_, b) := b.emptybuffer
  (concat b.lvl b.stack).map fun stack => { b with stack, lvl := 1 }

end

end Buffer

/-! ## What a function does with a buffer -/

inductive BufferOp (α : Type) where
  | addchar (c : UInt8)
  | addgstring (s : List UInt8)
  /-- the value is pushed first -/
  | addvalue (s : List UInt8)
  /-- `gafqL_prepbuffer`, bytes written to the space that it gives, and `gafqL_addsize` -/
  | prepbuffer (written : List UInt8)
  /-- other values are pushed and popped -/
  | balanced (values : List (StackValue α))

/-- One operation. -/
def BufferOp.run (size : Nat) (b : Buffer α) : BufferOp α → Option (Buffer α)
  | .addchar c => b.addchar size c
  | .addgstring s => b.addgstring size s
  | .addvalue s => Buffer.addvalue size { b with stack := .string s :: b.stack }
  | .prepbuffer written => b.prepbuffer.map fun b => b.addsize written
  | .balanced values => some { b with stack := (values ++ b.stack).drop values.length }

/-! ## Substitution -/

/-- `strstr`: where the first occurrence of `p` in `s` begins. -/
def strstr (s p : List UInt8) : Option Nat := (List.range (s.length + 1)).find? fun i => p.isPrefixOf (s.drop i)

/-- The loop of `gafqL_gsub`; at most so many iterations are made. -/
def gsubLoop (size : Nat) (p r : List UInt8) : (fuel : Nat) → (s : List UInt8) → Buffer α → Option (Buffer α)
  | 0, _, _ => none
  | fuel + 1, s, b =>
    match strstr s p with
    | some wild => do
      -- push prefix
      let b ← b.addgstring size (s.take wild)
      -- push replacement in place of pattern
      let b ← b.addgstring size r
      -- continue after `p`
      gsubLoop size p r fuel (s.drop (wild + p.length)) b
    -- push last suffix
    | none => b.addgstring size s

/-- `gafqL_gsub`: the stack that it leaves. -/
def gsub (size fuel : Nat) (s p r : List UInt8) (stack : List (StackValue α)) : Option (List (StackValue α)) := do
  let b ← gsubLoop size p r fuel s (buffinit stack)
  let b ← b.pushresult
  some b.stack

end Gafq.AuxLib
