import Gafq.IoLib.ReadLine
import Gafq.Verified.AuxBuffers

/-! # Lines without zero bytes

The pieces that `fgets` reads are cut off at their first zero byte.  A line without one is read exactly,
wherever the boundaries of the buffer fall; the rest of a piece after a zero byte is lost, and a newline
with it, so that the next line is read as well.
-/

namespace Gafq.IoLib

open AuxLib

/-! ## Lines -/

/-- The bytes up to but excluding the next newline. -/
def line (left : List UInt8) : List UInt8 := left.takeWhile (· ≠ newline)

/-- The file with the line and its newline consumed. -/
def pastLine (f : File) : File :=
  { f with position := f.position + ((line f.left).length + if newline ∈ f.left then 1 else 0) }

theorem line_cons {c : UInt8} (inside : c ≠ newline) (left : List UInt8) : line (c :: left) = c :: line left := by
  simp [line, inside]

/-- What `fgets` reads is the end of a line with its newline, or a part of the line. -/
theorem throughNewline_cases (n : Nat) (left : List UInt8) :
    (newline ∈ left ∧ throughNewline n left = line left ++ [newline]) ∨
    newline ∉ throughNewline n left ∧
      line left = throughNewline n left ++ line (left.drop (throughNewline n left).length) ∧
      (newline ∈ left ↔ newline ∈ left.drop (throughNewline n left).length) := by
  induction n, left using throughNewline.induct with
  | case1 left => exact .inr (by simp [throughNewline])
  | case2 n => exact .inr (by simp [throughNewline])
  | case3 n left => exact .inl (by simp [throughNewline, line])
  | case4 n c left inside inductionHypothesis =>
    have other := Ne.symm inside
    simp only [throughNewline, if_neg inside, line_cons inside, List.cons_append, List.cons.injEq, true_and,
      List.mem_cons, other, false_or, List.length_cons, List.drop_succ_cons]
    exact inductionHypothesis

theorem throughNewline_eq_nil {n : Nat} (positive : 0 < n) {left : List UInt8} :
    throughNewline n left = [] ↔ left = [] := by
  cases n with
  | zero => exact absurd positive (lt_irrefl 0)
  | succ n =>
    cases left with
    | nil => simp [throughNewline]
    | cons c left =>
      simp only [throughNewline]
      split <;> simp

/-! ## Pieces -/

/-- The file after `read` has been read. -/
def File.skip (f : File) (read : List UInt8) : File := { f with position := f.position + read.length }

@[simp] theorem File.skip_left (f : File) (read : List UInt8) : (f.skip read).left = f.left.drop read.length := by
  simp [File.left, File.skip, List.drop_drop]

theorem fgets_eq_none {size : Nat} (large : 2 ≤ size) {f : File} : fgets size f = none ↔ f.left = [] := by
  have nothing := @throughNewline_eq_nil (size - 1) (by omega) f.left
  simp only [fgets]
  split
  · simpa using nothing.1 ‹_›
  · simpa using fun none => ‹¬ _› (nothing.2 none)

theorem fgets_eq_some {size : Nat} (large : 2 ≤ size) {f : File} (more : f.left ≠ []) :
    fgets size f = some (throughNewline (size - 1) f.left ++ [0], f.skip (throughNewline (size - 1) f.left)) := by
  have nothing := @throughNewline_eq_nil (size - 1) (by omega) f.left
  exact if_neg fun none => more (nothing.1 none)

theorem take_strlen (p : List UInt8) : p.take (strlen p) = p.takeWhile (· ≠ 0) :=
  (List.prefix_iff_eq_take.1 (p.takeWhile_prefix _)).symm

theorem zero_notMem_take {p : List UInt8} {l : Nat} (le : l ≤ strlen p) : 0 ∉ p.take l := by
  intro member
  have inside : (0 : UInt8) ∈ p.takeWhile (· ≠ 0) := by
    rw [← take_strlen]
    exact (List.take_prefix_take_left le).subset member
  simpa using List.mem_takeWhile_imp inside

theorem strlen_of_notMem {read : List UInt8} (zeroFree : 0 ∉ read) : strlen (read ++ [0]) = read.length := by
  have kept : ∀ c ∈ read, decide (c ≠ 0) = true := by
    intro c member
    simpa using ne_of_mem_of_not_mem member zeroFree
  rw [strlen, List.takeWhile_append_of_pos kept]
  simp

/-! ## The buffer -/

variable {α : Type}

/-- The buffer holds `text`, above the values `base`. -/
def Holds (b : Buffer α) (text : List UInt8) (base : List (StackValue α)) : Prop :=
  ∃ a, b.Represents a base ∧ a.content = text

section

variable {b : Buffer α} {text : List UInt8} {base : List (StackValue α)}

theorem buffinit_holds (base : List (StackValue α)) : Holds (buffinit base) [] base :=
  ⟨{}, Buffer.buffinit_represents base, rfl⟩

theorem Holds.prepbuffer (holds : Holds b text base) : ∃ b', b.prepbuffer = some b' ∧ Holds b' text base := by
  obtain ⟨a, held, content⟩ := holds
  obtain ⟨b', prepared, same⟩ := held.prepbuffer
  exact ⟨b', prepared, a.prepbuffer, same, a.content_prepbuffer.trans content⟩

theorem Holds.addsize (holds : Holds b text base) (written : List UInt8) :
    Holds (b.addsize written) (text ++ written) base := by
  obtain ⟨a, held, rfl⟩ := holds
  exact ⟨_, held.addChars written, (List.append_assoc _ _ _).symm⟩

theorem Holds.pushresult (holds : Holds b text base) :
    ∃ b', b.pushresult = some b' ∧ b'.stack = .string text :: base := by
  obtain ⟨a, held, rfl⟩ := holds
  obtain ⟨b', pushed, stack, -⟩ := held.pushresult
  exact ⟨b', pushed, by rw [stack, StrLib.Buffer.pushresult_eq]⟩

end

/-! ## The loop -/

section

variable {size : Nat} {base : List (StackValue α)}

/-- An iteration ends the loop with what it has read, or goes on after a piece of the file. -/
theorem readLineLoop_step (large : 2 ≤ size) (fuel : Nat) {f : File} {b : Buffer α} {text : List UInt8}
    (holds : Holds b text base) :
    (f.left = [] ∧ readLineLoop size (fuel + 1) f b = some (decide (text.length > 0), f, .string text :: base)) ∨
    f.left ≠ [] ∧ ∃ p read, read = throughNewline (size - 1) f.left ∧ p = read ++ [0] ∧
      ((0 < strlen p ∧ p[strlen p - 1]? = some newline ∧
        readLineLoop size (fuel + 1) f b = some (true, f.skip read, .string (text ++ p.take (strlen p - 1)) :: base)) ∨
      ((strlen p = 0 ∨ p[strlen p - 1]? ≠ some newline) ∧ ∃ b', Holds b' (text ++ p.take (strlen p)) base ∧
        readLineLoop size (fuel + 1) f b = readLineLoop size fuel (f.skip read) b')) := by
  obtain ⟨b', prepared, holds'⟩ := holds.prepbuffer
  simp only [readLineLoop, prepared, Option.bind_eq_bind, Option.bind_some]
  by_cases nothing : f.left = []
  · refine .inl ⟨nothing, ?_⟩
    obtain ⟨b'', pushed, stack⟩ := holds'.pushresult
    simp [(fgets_eq_none large).2 nothing, pushed, stack, StackValue.strlen]
  · refine .inr ⟨nothing, _, _, rfl, rfl, ?_⟩
    rw [fgets_eq_some large nothing]
    dsimp only
    generalize throughNewline (size - 1) f.left = read
    by_cases cut : strlen (read ++ [0]) = 0 ∨ (read ++ [0])[strlen (read ++ [0]) - 1]? ≠ some newline
    · exact .inr ⟨cut, _, holds'.addsize _, if_pos cut⟩
    · rw [if_neg cut]
      rw [not_or, not_not] at cut
      obtain ⟨b'', pushed, stack⟩ := (holds'.addsize ((read ++ [0]).take (strlen (read ++ [0]) - 1))).pushresult
      refine .inl ⟨Nat.pos_of_ne_zero cut.1, cut.2, ?_⟩
      simp [pushed, stack]

/-- `read_line` returns for every file, with a string that has no zero bytes. -/
theorem readLineLoop_zeroFree (large : 2 ≤ size) (fuel : Nat) :
    ∀ (f : File) (b : Buffer α) (text : List UInt8), f.left.length < fuel → Holds b text base → 0 ∉ text →
      ∃ ok f' text', readLineLoop size fuel f b = some (ok, f', .string text' :: base) ∧ 0 ∉ text' := by
  induction fuel with
  | zero => exact fun _ _ _ none => absurd none (Nat.not_lt_zero _)
  | succ fuel inductionHypothesis =>
    intro f b text enough holds zeroFree
    have clean : ∀ {p : List UInt8} {l}, l ≤ strlen p → 0 ∉ text ++ p.take l := by
      intro p l le member
      cases List.mem_append.1 member with
      | inl before => exact zeroFree before
      | inr added => exact zero_notMem_take le added
    obtain ⟨-, ended⟩ | ⟨more, p, read, isRead, rfl, ⟨-, -, ended⟩ | ⟨-, b', holds', continued⟩⟩ :=
      readLineLoop_step large fuel (f := f) holds
    · exact ⟨_, _, _, ended, zeroFree⟩
    · exact ⟨_, _, _, ended, clean (Nat.sub_le _ _)⟩
    · rw [continued]
      refine inductionHypothesis _ _ _ ?_ holds' (clean (le_refl _))
      have positive : 0 < read.length := by
        rw [List.length_pos_iff, isRead, Ne, throughNewline_eq_nil (by omega)]
        exact more
      have some : 0 < f.left.length := List.length_pos_iff.2 more
      rw [File.skip_left, List.length_drop]
      omega

/-- A line without zero bytes is added to what the buffer holds. -/
theorem readLineLoop_exact (large : 2 ≤ size) (fuel : Nat) :
    ∀ (f : File) (b : Buffer α) (text : List UInt8), f.left.length < fuel → Holds b text base →
      0 ∉ line f.left → ∃ ok, readLineLoop size fuel f b =
        some (ok, pastLine f, .string (text ++ line f.left) :: base) ∧ (ok = false → text = [] ∧ f.left = []) := by
  induction fuel with
  | zero => exact fun _ _ _ none => absurd none (Nat.not_lt_zero _)
  | succ fuel inductionHypothesis =>
    intro f b text enough holds zeroFree
    obtain ⟨nothing, ended⟩ | ⟨more, p, read, isRead, rfl, step⟩ := readLineLoop_step large fuel (f := f) holds
    · refine ⟨decide (text.length > 0), ?_, fun failed => ⟨by simpa using failed, nothing⟩⟩
      simpa [line, pastLine, nothing] using ended
    · have positive : 0 < read.length := by
        rw [List.length_pos_iff, isRead, Ne, throughNewline_eq_nil (by omega)]
        exact more
      have some : 0 < f.left.length := List.length_pos_iff.2 more
      have cases := throughNewline_cases (size - 1) f.left
      rw [← isRead] at cases
      obtain ⟨ends, whole⟩ | ⟨part, lines, continues⟩ := cases
      · -- the piece is the rest of the line
        have clean : 0 ∉ read := by
          rw [whole, List.mem_append, not_or]
          exact ⟨zeroFree, by decide⟩
        have length : strlen (read ++ [0]) = (line f.left).length + 1 := by
          rw [strlen_of_notMem clean, whole, List.length_append]
          rfl
        have last : (read ++ [0])[strlen (read ++ [0]) - 1]? = Option.some newline := by
          rw [length]
          simp [whole]
        have taken : (read ++ [0]).take (strlen (read ++ [0]) - 1) = line f.left := by
          rw [length]
          simp [whole]
        have past : f.skip read = pastLine f := by simp [File.skip, pastLine, whole, ends]
        obtain ⟨-, -, ended⟩ | ⟨continued, -⟩ := step
        · rw [taken, past] at ended
          exact ⟨true, ended, fun failed => absurd failed (by decide)⟩
        · obtain short | other := continued
          · omega
          · exact absurd last other
      · -- the line goes on after the piece
        have clean : 0 ∉ read := fun member => zeroFree (lines ▸ List.mem_append_left _ member)
        have length := strlen_of_notMem clean
        have taken : (read ++ [0]).take (strlen (read ++ [0])) = read := by simp [length]
        have past : pastLine (f.skip read) = pastLine f := by
          simp only [pastLine, File.skip_left, lines, ← continues, List.length_append]
          simp only [File.skip, Nat.add_assoc]
        obtain ⟨-, last, -⟩ | ⟨-, b', holds', continued⟩ := step
        · rw [length, List.getElem?_append_left (by omega)] at last
          exact absurd (List.mem_of_getElem? last) part
        · rw [taken] at holds'
          have fewer : (f.skip read).left.length < fuel := by
            rw [File.skip_left, List.length_drop]
            omega
          have rest : 0 ∉ line (f.skip read).left := by
            rw [File.skip_left]
            exact fun member => zeroFree (lines ▸ List.mem_append_right _ member)
          obtain ⟨ok, ran, failure⟩ := inductionHypothesis (f.skip read) b' (text ++ read) fewer holds' rest
          refine ⟨ok, ?_, fun failed => ?_⟩
          · rw [continued, ran, past, File.skip_left, lines, List.append_assoc]
          · have none := (List.append_eq_nil_iff.1 (failure failed).1).2
            exact absurd none (List.length_pos_iff.1 positive)

end

/-! ## `read_line` -/

/-- The string of the next line is on the stack, the line and its newline have been consumed, and failure is
reported only when nothing is left to read. -/
structure LineRead (f : File) (base : List (StackValue α)) (read : Bool × File × List (StackValue α)) : Prop where
  string : read.2.2 = .string (line f.left) :: base
  file : read.2.1 = pastLine f
  failure : read.1 = false → f.left = []

/-- `read_line` reads exactly the lines that have no zero bytes. -/
theorem readLine_exact_iff (size : Nat) (large : 2 ≤ size) (f : File) (base : List (StackValue α)) :
    (∃ read, readLine size f base = some read ∧ LineRead f base read) ↔ 0 ∉ line f.left := by
  have holds := buffinit_holds base
  have enough : f.left.length < f.left.length + 1 := Nat.lt_succ_self _
  constructor
  · rintro ⟨read, ran, exact⟩
    obtain ⟨ok, f', text, ran', zeroFree⟩ :=
      readLineLoop_zeroFree large _ f (buffinit base) [] enough holds List.not_mem_nil
    obtain rfl : read = (ok, f', .string text :: base) := Option.some.inj (ran.symm.trans ran')
    have same : text = line f.left := by simpa using exact.string
    rwa [← same]
  · intro zeroFree
    obtain ⟨ok, ran, failure⟩ := readLineLoop_exact large _ f (buffinit base) [] enough holds zeroFree
    exact ⟨_, ran, rfl, rfl, fun failed => (failure failed).2⟩

/-- The line `abc`, and one more byte. -/
def longLine : File := ⟨[97, 98, 99, 10, 100], 0⟩

/-- It takes two pieces of a buffer with room for two bytes and a zero. -/
theorem readLine_exact_iff_example :
    (∃ read, readLine 3 longLine [.other ()] = some read ∧
      LineRead longLine [.other ()] read) ↔ 0 ∉ line longLine.left :=
  readLine_exact_iff 3 (by decide) _ _

/-- The file with the bytes `a`, zero, `b` in its first line and `c` in its second. -/
def twoLines : File := ⟨[97, 0, 98, 10, 99, 10], 0⟩

/-- The first line is read as `ac`, and both lines are consumed. -/
theorem readLine_mergesLines :
    readLine 256 twoLines [.other ()] = some (true, ⟨twoLines.content, 6⟩, [.string [97, 99], .other ()]) ∧
    ¬ ∃ read, readLine 256 twoLines [.other ()] = some read ∧ LineRead twoLines [.other ()] read := by
  constructor
  · decide
  · rintro ⟨read, ran, exact⟩
    have merged : readLine 256 twoLines [.other ()] =
        some (true, ⟨twoLines.content, 6⟩, [.string [97, 99], .other ()]) := by decide
    obtain rfl := Option.some.inj (ran.symm.trans merged)
    exact absurd exact.string (by decide)

end Gafq.IoLib
