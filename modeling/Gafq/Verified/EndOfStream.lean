import Gafq.Verified.Loading

/-! # No byte after the end of the stream

Nothing in a `ZIO` says that the stream has ended: `zgetc` has wrapped its counter around, and would read on
after the last block.  A stream is observed here that remembers the end and refuses to answer after it; the
lexer and any parser that gets its tokens from it run on this stream as well.
-/

namespace Gafq.Stream

open Base Lexer Program

variable {N E α : Type}

/-- `zgetc` of a stream that refuses once `EOZ` has been returned. -/
def zgetcOnce (reader : Nat → List UInt8) : Bool × ZIO → Option (Option UInt8 × Bool × ZIO)
  | (true, _) => none
  | (false, z) => (zgetc reader z).map fun (c, z) => (c, c.isNone, z)

/-- Before the end the counter is the number of bytes left in the block. -/
def Before (s : Bool × ZIO) : Prop := s.1 = false ∧ s.2.n = s.2.p.length

/-- At the end the counter has wrapped around. -/
def After (s : Bool × ZIO) : Prop := s.1 = true ∧ s.2.n = 2 ^ 64 - 1

variable {reader : Nat → List UInt8}

theorem zgetc_eoz {z z' : ZIO} (ended : zgetc reader z = some (none, z')) :
    z'.n = 2 ^ 64 - 1 := by
  unfold zgetc at ended
  split at ended
  · next more =>
    split at ended
    · cases ended
    · cases ended
  · unfold fill at ended
    split at ended
    · cases ended
      rfl
    · cases ended

theorem zgetcOnce_answers {s : Bool × ZIO} (before : Before s) :
    ∃ c s', zgetcOnce reader s = some (c, s') ∧ (c = none → After s') ∧ (c ≠ none → Before s') := by
  obtain ⟨flag, z⟩ := s
  obtain ⟨rfl, count⟩ := before
  have alive : Live reader z.calls z := ⟨count, Nat.le_refl _, fun i after before => absurd before (by omega)⟩
  obtain ⟨c, z', got, -, goesOn⟩ := zgetc_answers alive
  refine ⟨c, (c.isNone, z'), by simp [zgetcOnce, got], ?_, ?_⟩
  · rintro rfl
    exact ⟨rfl, zgetc_eoz got⟩
  · intro more
    exact ⟨Option.isNone_eq_false_iff.2 (Option.isSome_iff_ne_none.2 more), (goesOn more).1⟩

/-- Whatever the stream ends in, the lexer and the parser do not call `zgetc` after it has returned `EOZ`, and
no byte beyond a block is read. -/
theorem gafqYParser_endsOnce (env : Library N) (fuel : Nat) (parser : Parser N E α) (reader : Nat → List UInt8)
    (steps : Nat) (ls : LexState N) (z : ZIO) (count : z.n = z.p.length) :
    ∃ r s, (gafqYParser env fuel parser steps ls).runFrom (zgetcOnce reader) (false, z) = some (r, s) ∧
      (s.1 = true → s.2.n = 2 ^ 64 - 1) := by
  have careful := fun togo => @gafqYParser_stops N E α env fuel parser steps ls True (togo + 1) (.inr trivial) (Nat.succ_pos _)
  have before : Before (false, z) := ⟨rfl, count⟩
  obtain ⟨r, s, ran, final⟩ := Careful.runFrom_ends (fun _ => zgetcOnce_answers) careful before
  refine ⟨r, s, ran, fun ended => ?_⟩
  obtain notEnded | atEnd := final
  · rw [notEnded.1] at ended
    cases ended
  · exact atEnd.2

/-- The stream ends in a string. -/
theorem gafqYParser_endsOnce_string :
    ∃ r s, (gafqYParser noNumbers 9 tokenParser 9 blankState).runFrom
        (zgetcOnce (ofBlocks [bytes "a", bytes "='b"])) (false, init) = some (r, s) ∧ (s.1 = true → s.2.n = 2 ^ 64 - 1) :=
  gafqYParser_endsOnce noNumbers 9 tokenParser _ 9 blankState init rfl

end Gafq.Stream
