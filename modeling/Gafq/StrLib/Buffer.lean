import Mathlib

/-! # String buffers

The generic buffers of `gauxlib.c`.  Characters are collected in an array; when it is full they go to
the stack as a string, where strings are concatenated now and then so that there are not too many.
-/

namespace Gafq.StrLib

/-- `gafqL_Buffer` and the strings that it has on the stack. -/
structure Buffer where
  chars : List UInt8 := []
  /-- `lvl` strings, the top of the stack first -/
  pieces : List (List UInt8) := []

/-- `LIMIT` -/
def bufferLimit : Nat := 20 / 2

namespace Buffer

/-- `gafq_concat` of the `n` strings on the top. -/
def concatTop (n : Nat) (pieces : List (List UInt8)) : List (List UInt8) :=
  (pieces.take n).reverse.flatten :: pieces.drop n

/-- `emptybuffer`: whether it has put something on the stack. -/
def emptybuffer (b : Buffer) : Bool × Buffer :=
  -- put nothing on stack
  if b.chars.length = 0 then (false, b) else (true, ⟨[], b.chars :: b.pieces⟩)

/-- The loop of `adjuststack`: the number of levels to concat, from the strings that are not yet among them. -/
def adjustLoop (lvl : Nat) : Nat → Nat → List (List UInt8) → Nat
  | toget, _, [] => toget
  | toget, toplen, s :: below =>
    if bufferLimit ≤ lvl - toget + 1 ∨ s.length < toplen then adjustLoop lvl (toget + 1) (toplen + s.length) below
    else toget

def adjuststack (b : Buffer) : Buffer :=
  match b.pieces with
  | top :: s :: below =>
    let toget := adjustLoop b.pieces.length 1 top.length (s :: below)
    { b with pieces := concatTop toget b.pieces }
  | _ => b

/-- `gafqL_prepbuffer` -/
def prepbuffer (b : Buffer) : Buffer :=
  match b.emptybuffer with
  | (true, b) => b.adjuststack
  | (false, b) => b

section

variable (size : Nat)

/-- `gafqL_addchar`, for an array of so many characters. -/
def addchar (b : Buffer) (c : UInt8) : Buffer :=
  let b := if b.chars.length < size then b else b.prepbuffer
  { b with chars := b.chars ++ [c] }

/-- `gafqL_addgstring` -/
def addgstring (b : Buffer) (s : List UInt8) : Buffer := s.foldl (addchar size) b

/-- `gafqL_addvalue` of a string on the top of the stack. -/
def addvalue (b : Buffer) (s : List UInt8) : Buffer :=
  -- fit into buffer?  put it there
  if s.length ≤ size - b.chars.length then { b with chars := b.chars ++ s }
  else
    -- put buffer before new value
    let b := b.emptybuffer.2
    adjuststack { b with pieces := s :: b.pieces }

end

/-- `gafqL_pushresult`: the string that it leaves on the stack. -/
def pushresult (b : Buffer) : List UInt8 :=
  let b := b.emptybuffer.2
  b.pieces.reverse.flatten

/-! ## Contents -/

/-- All characters of a buffer. -/
def content (b : Buffer) : List UInt8 := b.pieces.reverse.flatten ++ b.chars

theorem content_emptybuffer (b : Buffer) : b.emptybuffer.2.content = b.content := by
  simp only [emptybuffer, content]
  split <;> simp

theorem emptybuffer_chars (b : Buffer) : b.emptybuffer.2.chars = [] := by
  simp only [emptybuffer]
  split
  · next none => simpa using none
  · rfl

theorem content_adjuststack (b : Buffer) : b.adjuststack.content = b.content := by
  simp only [adjuststack]
  split
  · next top s below held =>
    have whole := List.take_append_drop (adjustLoop b.pieces.length 1 top.length (s :: below)) b.pieces
    simp only [content, concatTop, List.reverse_cons, List.flatten_append, List.flatten_singleton]
    rw [← List.flatten_append, ← List.reverse_append, whole]
  · rfl

theorem content_prepbuffer (b : Buffer) : b.prepbuffer.content = b.content := by
  have emptied := content_emptybuffer b
  simp only [prepbuffer]
  split
  · next b' held => simpa [content_adjuststack, held] using emptied
  · next b' held => simpa [held] using emptied

@[simp] theorem content_addchar (size : Nat) (b : Buffer) (c : UInt8) : (b.addchar size c).content = b.content ++ [c] := by
  have added (b : Buffer) : ({ b with chars := b.chars ++ [c] } : Buffer).content = b.content ++ [c] := by simp [content]
  simp only [addchar]
  rw [added]
  split
  · rfl
  · rw [content_prepbuffer]

@[simp] theorem content_addgstring (size : Nat) (b : Buffer) (s : List UInt8) :
    (b.addgstring size s).content = b.content ++ s := by
  induction s generalizing b with
  | nil => simp [addgstring]
  | cons c s inductionHypothesis =>
    have step := inductionHypothesis (b.addchar size c)
    rw [content_addchar, List.append_assoc, List.singleton_append] at step
    exact step

@[simp] theorem content_addvalue (size : Nat) (b : Buffer) (s : List UInt8) :
    (b.addvalue size s).content = b.content ++ s := by
  simp only [addvalue]
  split
  · simp [content]
  · have emptied := content_emptybuffer b
    rw [content_adjuststack, ← emptied]
    simp [content, emptybuffer_chars]

theorem pushresult_eq (b : Buffer) : b.pushresult = b.content := by
  have emptied := content_emptybuffer b
  rw [pushresult, ← emptied, content, emptybuffer_chars, List.append_nil]

end Buffer

end Gafq.StrLib
