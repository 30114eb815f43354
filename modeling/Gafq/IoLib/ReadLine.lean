import Gafq.AuxLib.Buffer
import Gafq.Ctype

/-! # Reading a line

`read_line` of `giolib.c`, over a file that does not change while it is read.  What the standard library
leaves in memory is a list of bytes: `fgets` ends them with a zero, and `strlen` looks for the first one.
-/

namespace Gafq.IoLib

open AuxLib

/-- A file that is open for reading. -/
structure File where
  content : List UInt8
  position : Nat
deriving DecidableEq, Repr

/-- The bytes from the read position on. -/
def File.left (f : File) : List UInt8 := f.content.drop f.position

def newline : UInt8 := byte '\n'

/-- At most `n` bytes, and none after the first newline. -/
def throughNewline : (n : Nat) → List UInt8 → List UInt8
  | 0, _ => []
  | _, [] => []
  | n + 1, c :: left => if c = newline then [c] else c :: throughNewline n left

/-- `fgets` into an array of `size` bytes: what it stores there, or nothing at the end of the file. -/
def fgets (size : Nat) (f : File) : Option (List UInt8 × File) :=
  let read := throughNewline (size - 1) f.left
  if read = [] then none else some (read ++ [0], { f with position := f.position + read.length })

def strlen (p : List UInt8) : Nat := (p.takeWhile (· ≠ 0)).length

section

variable {α : Type} (size : Nat)

/-- The loop of `read_line`; at most so many iterations are made. -/
def readLineLoop : (fuel : Nat) → File → Buffer α → Option (Bool × File × List (StackValue α))
  | 0, _, _ => none
  | fuel + 1, f, b => do
    let b ← b.prepbuffer
    match fgets size f with
    -- eof?  close buffer and check whether read something
    | none => do
      let b ← b.pushresult
      some (decide ((b.stack.head?.map StackValue.strlen).getD 0 > 0), f, b.stack)
    | some (p, f) =>
      let l := strlen p
      if l = 0 ∨ p[l - 1]? ≠ some newline then readLineLoop fuel f (b.addsize (p.take l))
      else do
        -- do not include `eol'
        let b ← (b.addsize (p.take (l - 1))).pushresult
        some (true, f, b.stack)

/-- `read_line`: whether it has succeeded, with the file and the stack that it leaves. -/
def readLine (f : File) (stack : List (StackValue α)) : Option (Bool × File × List (StackValue α)) :=
  readLineLoop size (f.left.length + 1) f (buffinit stack)

end

end Gafq.IoLib
