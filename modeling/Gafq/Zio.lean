import Gafq.Base.Decoder

/-! # Buffered input streams

`gzio.c`.  A reader is the list of blocks it will return; an empty block, like the end of the
list, is the `NULL` or zero size that ends the stream.  `buff` is the part of the current block
from `z->p` on, so its length is `z->n`.
-/

namespace Gafq

structure Zio where
  /-- bytes still unread of the current block -/
  buff : List UInt8
  /-- what the reader returns from now on, one block a call -/
  blocks : List (List UInt8)
deriving Repr

/-- `gafqZ_init`. -/
def Zio.init (blocks : List (List UInt8)) : Zio := ⟨[], blocks⟩

/-- What a read of `n` bytes copied, how many bytes are missing, and the stream after it. -/
structure Zio.ReadResult where
  bytes : List UInt8
  missing : Nat
  stream : Zio

/-- `gafqZ_read`: copy from the current block; when it is used up, ask the reader for the next one
(`gafqZ_lookahead` and `gafqZ_fill`), until `n` bytes are read or the stream ends. -/
def Zio.readFrom (n : Nat) (buff : List UInt8) : List (List UInt8) → Zio.ReadResult
  | [] =>
    if n ≤ buff.length then ⟨buff.take n, 0, ⟨buff.drop n, []⟩⟩
    else ⟨buff, n - buff.length, ⟨[], []⟩⟩
  | block :: blocks =>
    if n ≤ buff.length then ⟨buff.take n, 0, ⟨buff.drop n, block :: blocks⟩⟩
    else if block = [] then ⟨buff, n - buff.length, ⟨[], blocks⟩⟩
    else
      let rest := Zio.readFrom (n - buff.length) block blocks
      ⟨buff ++ rest.bytes, rest.missing, rest.stream⟩

def Zio.read (z : Zio) (n : Nat) : Zio.ReadResult := Zio.readFrom n z.buff z.blocks

/-- The blocks up to the end of the stream. -/
def Zio.upToEnd : List (List UInt8) → List UInt8
  | [] => []
  | block :: blocks => if block = [] then [] else block ++ Zio.upToEnd blocks

/-- The bytes a caller can still read. -/
def Zio.content (z : Zio) : List UInt8 := z.buff ++ Zio.upToEnd z.blocks

/-- However the reader cuts the stream into blocks, a read returns the next `n` bytes. -/
theorem Zio.readFrom_content (bs rest : List UInt8) : ∀ (buff : List UInt8) (blocks : List (List UInt8)),
    buff ++ upToEnd blocks = bs ++ rest →
    ∃ z, readFrom bs.length buff blocks = ⟨bs, 0, z⟩ ∧ z.content = rest := by
  intro buff blocks
  induction blocks generalizing bs buff with
  | nil =>
    intro holds
    simp only [upToEnd, List.append_nil] at holds
    subst holds
    simp [readFrom, content, upToEnd]
  | cons block blocks inductionHypothesis =>
    intro holds
    unfold readFrom
    by_cases enough : bs.length ≤ buff.length
    · simp only [enough, if_true]
      have front : buff.take bs.length = bs := by
        have := congrArg (List.take bs.length) holds
        rwa [List.take_append_of_le_length enough, List.take_left] at this
      refine ⟨_, by rw [front], ?_⟩
      have back := congrArg (List.drop bs.length) holds
      rwa [List.drop_append_of_le_length enough, List.drop_left] at back
    · simp only [enough, if_false]
      -- the current block is a proper beginning of what is wanted
      obtain ⟨more, split⟩ : ∃ more, bs = buff ++ more := by
        have shorter : buff.length ≤ bs.length := by omega
        have beginning := congrArg (List.take buff.length) holds
        rw [List.take_left, List.take_append_of_le_length shorter] at beginning
        refine ⟨bs.drop buff.length, ?_⟩
        nth_rewrite 1 [← List.take_append_drop buff.length bs]
        rw [← beginning]
      subst split
      rw [List.append_assoc] at holds
      have remaining := List.append_cancel_left holds
      simp only [upToEnd] at remaining
      by_cases ended : block = []
      · simp only [ended, if_true] at remaining
        have := congrArg List.length remaining
        simp only [List.length_nil, List.length_append] at this enough
        omega
      · simp only [ended, if_false] at remaining ⊢
        obtain ⟨z, read, left⟩ := inductionHypothesis more block remaining
        refine ⟨z, ?_, left⟩
        simp only [List.length_append, Nat.add_sub_cancel_left, read]

theorem Zio.read_content {z : Zio} {bs rest : List UInt8} (holds : z.content = bs ++ rest) :
    ∃ z', z.read bs.length = ⟨bs, 0, z'⟩ ∧ z'.content = rest :=
  readFrom_content bs rest z.buff z.blocks holds

/-- A read that misses nothing took exactly `n` bytes from the stream. -/
theorem Zio.readFrom_complete {n : Nat} {buff : List UInt8} {blocks : List (List UInt8)}
    (complete : (readFrom n buff blocks).missing = 0) :
    (readFrom n buff blocks).bytes.length = n ∧
    buff ++ upToEnd blocks = (readFrom n buff blocks).bytes ++ (readFrom n buff blocks).stream.content := by
  induction blocks generalizing n buff with
  | nil =>
    simp only [readFrom] at complete ⊢
    split at complete
    · rename_i enough
      simp [enough, content, upToEnd]
    · simp only at complete
      omega
  | cons block blocks inductionHypothesis =>
    simp only [readFrom] at complete ⊢
    by_cases enough : n ≤ buff.length
    · simp [enough, content, upToEnd, ← List.append_assoc]
    · simp only [enough, if_false] at complete ⊢
      by_cases ended : block = []
      · simp only [ended, if_true] at complete
        omega
      · simp only [ended, if_false] at complete ⊢
        obtain ⟨length, split⟩ := inductionHypothesis complete
        refine ⟨?_, ?_⟩
        · rw [List.length_append, length]
          omega
        · rw [upToEnd, if_neg ended, split, List.append_assoc]

theorem Zio.read_complete {z : Zio} {n : Nat} (complete : (z.read n).missing = 0) :
    (z.read n).bytes.length = n ∧ z.content = (z.read n).bytes ++ (z.read n).stream.content :=
  readFrom_complete complete

end Gafq
