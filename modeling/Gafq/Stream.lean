import Gafq.Lex
import Gafq.Undump

/-! # Loading a chunk from a reader

`gzio.c` with the counter that `zgetc` decrements before it tests it, and `f_parser` over it.  The reader
is asked for one block after another; `reader i` is its answer to the call number `i`, empty when it
signals the end of the stream.  The end is not remembered: whoever asks again calls the reader again.

The parser is any machine that gets its tokens with `gafqX_next` and `gafqX_lookahead`, and the loader of
precompiled chunks any program that gets its bytes with `LoadBlock`.
-/

namespace Gafq.Stream

open Base Lexer

/-! ## Streams -/

structure ZIO where
  /-- bytes still unread -/
  n : Nat
  /-- the block from the current position on -/
  p : List UInt8
  /-- how often the reader has been called -/
  calls : Nat
deriving Repr

/-- `gafqZ_init` -/
def init : ZIO := ⟨0, [], 0⟩

section

variable (reader : Nat → List UInt8)

/-- `gafqZ_fill`; `none` is `EOZ`. -/
def fill (z : ZIO) : Option UInt8 × ZIO :=
  match reader z.calls with
  | [] => (none, { z with calls := z.calls + 1 })
  | b :: rest => (some b, ⟨rest.length, rest, z.calls + 1⟩)

/-- `zgetc`; `none` if it reads after the block. -/
def zgetc (z : ZIO) : Option (Option UInt8 × ZIO) :=
  if z.n > 0 then
    match z.p with
    | [] => none
    | b :: rest => some (some b, ⟨z.n - 1, rest, z.calls⟩)
  -- the counter has been decremented
  else some (fill reader { z with n := 2 ^ 64 - 1 })

/-- `gafqZ_lookahead` -/
def lookahead (z : ZIO) : Option (Option UInt8 × ZIO) :=
  if z.n = 0 then
    match fill reader z with
    | (none, z) => some (none, z)
    -- `gafqZ_fill' removed first byte; put back it
    | (some b, z) => some (some b, { z with n := z.n + 1, p := b :: z.p })
  else
    match z.p with
    | [] => none
    | b :: rest => some (some b, ⟨z.n, b :: rest, z.calls⟩)

/-- The loop of `gafqZ_read`: the bytes that have been copied, the number of missing bytes, and the stream. -/
def readLoop : (left n : Nat) → ZIO → List UInt8 → Option (List UInt8 × Nat × ZIO)
  | 0, n, z, b => some (b, n, z)
  | left + 1, n, z, b =>
    if n = 0 then some (b, 0, z)
    else
      match lookahead reader z with
      | none => none
      | some (none, z) => some (b, n, z)
      | some (some _, z) =>
        let m := min n z.n
        if m ≤ z.p.length then readLoop left (n - m) { z with n := z.n - m, p := z.p.drop m } (b ++ z.p.take m)
        else none

/-- `gafqZ_read`; every iteration copies a byte, so `n` of them are enough. -/
def read (z : ZIO) (n : Nat) : Option (List UInt8 × Nat × ZIO) := readLoop reader n n z []

end

/-! ## Precompiled chunks -/

/-- A program that gets its bytes with `LoadBlock`. -/
inductive Loader (α : Type) where
  | done (a : α)
  | fail (e : LoadError)
  | block (size : Nat) (next : List UInt8 → Loader α)

namespace Loader

variable {α : Type}

protected def bind {γ : Type} : Loader α → (α → Loader γ) → Loader γ
  | done a, f => f a
  | fail e, _ => fail e
  | block size next, f => block size fun bytes => (next bytes).bind f

def runFrom (reader : Nat → List UInt8) : Loader α → ZIO → Option (Except LoadError α × ZIO)
  | done a, z => some (.ok a, z)
  | fail e, z => some (.error e, z)
  | block size next, z =>
    match read reader z size with
    | none => none
    | some (bytes, missing, z) =>
      if missing ≠ 0 then some (.error .unexpectedEnd, z) else (next bytes).runFrom reader z

/-- The program on a list of bytes. -/
def run : Loader α → List UInt8 → Except LoadError (α × List UInt8)
  | done a, l => .ok (a, l)
  | fail e, _ => .error e
  | block size next, l => if l.length < size then .error .unexpectedEnd else (next (l.take size)).run (l.drop size)

end Loader

/-! ## The parser -/

/-- What a parser does next. -/
inductive Action (S E α : Type) where
  | finish (r : Except E α)
  | next (s : S)
  | lookahead (s : S)

/-- A parser with errors `E`. -/
structure Parser (N E α : Type) where
  State : Type
  start : State
  step : State → LexState N → Action State E α

inductive LoadFailure (E : Type) where
  | lexer (e : LexError)
  | parser (e : E)
  | chunk (e : LoadError)
  /-- the parser has not finished within the given number of steps -/
  | unfinished
deriving DecidableEq, Repr

section

variable {N E α : Type} (env : Library N) (fuel : Nat) (parser : Parser N E α)

def parse : (steps : Nat) → parser.State → LexState N → LexM (Except (LoadFailure E) α)
  | 0, _, _ => pure (.error .unfinished)
  | steps + 1, s, ls =>
    match parser.step s ls with
    | .finish r => pure (r.mapError .parser)
    | .next s => do
      let ls ← gafqXNext env fuel ls
      parse steps s ls
    | .lookahead s => do
      let ls ← gafqXLookahead env fuel ls
      parse steps s ls

/-- `gafqY_parser`; `ls` is what the lexer's state is before `gafqX_setinput`. -/
def gafqYParser (steps : Nat) (ls : LexState N) : LexM (Except (LoadFailure E) α) := do
  let ls ← setinput ls
  parse env fuel parser steps parser.start ls

/-! ## Loading -/

/-- The errors of the lexer and those of the parser. -/
def textResult : Except LexError (Except (LoadFailure E) α) → Except (LoadFailure E) α
  | .ok r => r
  | .error e => .error (.lexer e)

variable (loader : Loader α) (reader : Nat → List UInt8)

/-- `f_parser` -/
def fParser (steps : Nat) (ls : LexState N) (z : ZIO) : Option (Except (LoadFailure E) α × ZIO) :=
  match lookahead reader z with
  | none => none
  | some (c, z) =>
    if c = signature.head? then (loader.runFrom reader z).map fun r => (r.1.mapError .chunk, r.2)
    else ((gafqYParser env fuel parser steps ls).runFrom (zgetc reader) z).map fun r => (textResult r.1, r.2)

/-- `gafq_load`: what it loads, and the stream after it. -/
def load (steps : Nat) (ls : LexState N) : Option (Except (LoadFailure E) α × ZIO) :=
  fParser env fuel parser loader reader steps ls init

end

end Gafq.Stream
