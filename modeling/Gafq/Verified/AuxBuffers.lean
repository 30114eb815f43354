import Gafq.AuxLib.Buffer
import Gafq.StrLib.Buffer

/-! # Buffers hold what was added

The strings of a buffer lie on the top of the stack, above the values that were there before
`gafqL_buffinit`.  With those values left out of account, the operations are the ones on lists of strings.
-/

namespace Gafq.AuxLib

open StrLib (bufferLimit)

variable {α : Type}

/-! ## The strings on the top of the stack -/

theorem popStrings_map (n : Nat) (pieces : List (List UInt8)) (base : List (StackValue α)) (enough : n ≤ pieces.length) :
    popStrings n (pieces.map .string ++ base) =
      some ((pieces.take n).reverse.flatten, (pieces.drop n).map .string ++ base) := by
  induction n generalizing pieces with
  | zero => simp [popStrings]
  | succ n inductionHypothesis =>
    cases pieces with
    | nil => simp at enough
    | cons s pieces =>
      have rest := inductionHypothesis pieces (by simpa using enough)
      simp [popStrings, rest]

theorem concat_map (n : Nat) (pieces : List (List UInt8)) (base : List (StackValue α)) (enough : n ≤ pieces.length) :
    concat n (pieces.map .string ++ base) = some ((StrLib.Buffer.concatTop n pieces).map .string ++ base) := by
  simp [concat, popStrings_map n pieces base enough, StrLib.Buffer.concatTop]

namespace Buffer

/-! ## Buffers without the rest of the stack -/

/-- The buffer `b` is the list of strings and characters `a`, on top of the values `base`. -/
structure Represents (b : Buffer α) (a : StrLib.Buffer) (base : List (StackValue α)) : Prop where
  chars : b.chars = a.chars
  lvl : b.lvl = a.pieces.length
  stack : b.stack = a.pieces.map .string ++ base

theorem buffinit_represents (base : List (StackValue α)) : (buffinit base).Represents {} base := ⟨rfl, rfl, rfl⟩

variable {b : Buffer α} {a : StrLib.Buffer} {base : List (StackValue α)}

theorem Represents.emptybuffer (held : b.Represents a base) :
    b.emptybuffer.1 = a.emptybuffer.1 ∧ b.emptybuffer.2.Represents a.emptybuffer.2 base := by
  simp only [Buffer.emptybuffer, StrLib.Buffer.emptybuffer, held.chars]
  split
  · exact ⟨rfl, held⟩
  · exact ⟨rfl, rfl, by simp [held.lvl], by simp [held.stack]⟩

theorem Represents.adjustLoop (held : b.Represents a base) (below : List (List UInt8)) (toget toplen : Nat)
    (rest : a.pieces.drop toget = below) :
    b.adjustLoop below.length toget toplen = StrLib.Buffer.adjustLoop a.pieces.length toget toplen below := by
  induction below generalizing toget toplen with
  | nil => rfl
  | cons s below inductionHypothesis =>
    have next : a.pieces.drop (toget + 1) = below := by rw [← List.drop_drop, rest, List.drop_one, List.tail_cons]
    have inside : toget ≤ (a.pieces.map (StackValue.string (α := α))).length := by
      have room := congrArg List.length rest
      simp only [List.length_drop, List.length_cons] at room
      simp only [List.length_map]
      omega
    have length : ((b.stack.drop toget).head?.map StackValue.strlen).getD 0 = s.length := by
      rw [held.stack, List.drop_append_of_le_length inside, ← List.map_drop, rest]
      rfl
    have more : b.lvl - toget + 1 ≥ limit ∨ toplen > s.length ↔
        bufferLimit ≤ a.pieces.length - toget + 1 ∨ s.length < toplen := by
      rw [held.lvl]
      rfl
    simp only [List.length_cons, Buffer.adjustLoop, StrLib.Buffer.adjustLoop, length, more,
      inductionHypothesis (toget + 1) _ next]

/-- The loop stays between the levels that it has and all of them. -/
theorem adjustLoop_le (lvl toget toplen : Nat) (below : List (List UInt8)) :
    StrLib.Buffer.adjustLoop lvl toget toplen below ≤ toget + below.length := by
  induction below generalizing toget toplen with
  | nil => simp [StrLib.Buffer.adjustLoop]
  | cons s below inductionHypothesis =>
    have next := inductionHypothesis (toget + 1) (toplen + s.length)
    simp only [StrLib.Buffer.adjustLoop, List.length_cons]
    split <;> omega

theorem Represents.adjuststack (held : b.Represents a base) :
    ∃ b', b.adjuststack = some b' ∧ b'.Represents a.adjuststack base := by
  cases pieces : a.pieces with
  | nil =>
    have lvl : b.lvl = 0 := by simp [held.lvl, pieces]
    exact ⟨b, by simp [Buffer.adjuststack, lvl], by simpa [StrLib.Buffer.adjuststack, pieces] using held⟩
  | cons top below =>
    cases below with
    | nil =>
      have lvl : b.lvl = 1 := by simp [held.lvl, pieces]
      exact ⟨b, by simp [Buffer.adjuststack, lvl], by simpa [StrLib.Buffer.adjuststack, pieces] using held⟩
    | cons s below =>
      have many : b.lvl > 1 := by simp [held.lvl, pieces]
      have left : b.lvl - 1 = (s :: below).length := by simp [held.lvl, pieces]
      have toplen : (b.stack.head?.map StackValue.strlen).getD 0 = top.length := by
        simp [held.stack, pieces, StackValue.strlen]
      have same := held.adjustLoop (s :: below) 1 top.length (by simp [pieces])
      have enough := adjustLoop_le a.pieces.length 1 top.length (s :: below)
      have whole : 1 + (s :: below).length = a.pieces.length := by simp [pieces, Nat.add_comm]
      rw [whole] at enough
      have joined := concat_map _ a.pieces base enough
      rw [← held.stack] at joined
      simp only [Buffer.adjuststack, if_pos many, left, toplen, same, joined, Option.map_some]
      refine ⟨_, rfl, ?_, ?_, ?_⟩
      · simp [StrLib.Buffer.adjuststack, pieces, held.chars]
      · simp only [held.lvl, StrLib.Buffer.adjuststack, pieces, StrLib.Buffer.concatTop, List.length_cons,
          List.length_drop]
      · simp [StrLib.Buffer.adjuststack, pieces]

theorem Represents.prepbuffer (held : b.Represents a base) :
    ∃ b', b.prepbuffer = some b' ∧ b'.Represents a.prepbuffer base := by
  obtain ⟨flag, emptied⟩ := held.emptybuffer
  cases ours : b.emptybuffer with
  | mk put b' =>
    cases theirs : a.emptybuffer with
    | mk put' a' =>
      rw [ours, theirs] at flag emptied
      simp only at flag emptied
      subst flag
      cases put with
      | false => exact ⟨b', by simp [Buffer.prepbuffer, ours], by simpa [StrLib.Buffer.prepbuffer, theirs] using emptied⟩
      | true =>
        obtain ⟨b'', adjusted, same⟩ := emptied.adjuststack
        exact ⟨b'', by simpa [Buffer.prepbuffer, ours] using adjusted, by simpa [StrLib.Buffer.prepbuffer, theirs] using same⟩

theorem Represents.addChars (held : b.Represents a base) (s : List UInt8) :
    ({ b with chars := b.chars ++ s } : Buffer α).Represents { a with chars := a.chars ++ s } base :=
  ⟨by simp [held.chars], held.lvl, held.stack⟩

theorem Represents.addchar (size : Nat) (held : b.Represents a base) (c : UInt8) :
    ∃ b', b.addchar size c = some b' ∧ b'.Represents (a.addchar size c) base := by
  simp only [Buffer.addchar, StrLib.Buffer.addchar, held.chars]
  split
  · exact ⟨_, rfl, held.addChars [c]⟩
  · obtain ⟨b', prepared, same⟩ := held.prepbuffer
    exact ⟨_, by simp [prepared], same.addChars [c]⟩

theorem Represents.addgstring (size : Nat) (held : b.Represents a base) (s : List UInt8) :
    ∃ b', b.addgstring size s = some b' ∧ b'.Represents (a.addgstring size s) base := by
  induction s generalizing b a with
  | nil => exact ⟨b, rfl, held⟩
  | cons c s inductionHypothesis =>
    obtain ⟨b₁, added, same⟩ := held.addchar size c
    obtain ⟨b₂, rest, final⟩ := inductionHypothesis same
    refine ⟨b₂, ?_, final⟩
    rw [Buffer.addgstring, List.foldlM_cons, added]
    exact rest

theorem Represents.addvalue (size : Nat) (held : b.Represents a base) (s : List UInt8) :
    ∃ b', Buffer.addvalue size { b with stack := .string s :: b.stack } = some b' ∧
      b'.Represents (a.addvalue size s) base := by
  have room : size - b.chars.length = size - a.chars.length := by rw [held.chars]
  simp only [Buffer.addvalue, StrLib.Buffer.addvalue, room]
  split
  · exact ⟨_, rfl, held.addChars s⟩
  · have emptied := held.emptybuffer.2
    apply Represents.adjuststack
    exact ⟨emptied.chars, by simp [emptied.lvl], by simp [emptied.stack]⟩

theorem Represents.pushresult (held : b.Represents a base) :
    ∃ b', b.pushresult = some b' ∧ b'.stack = .string a.pushresult :: base ∧ b'.lvl = 1 := by
  have emptied := held.emptybuffer.2
  have joined := concat_map _ a.emptybuffer.2.pieces base (Nat.le_refl _)
  rw [← emptied.stack, ← emptied.lvl] at joined
  simp only [Buffer.pushresult, joined, Option.map_some]
  exact ⟨_, rfl, by simp [StrLib.Buffer.concatTop, StrLib.Buffer.pushresult, emptied.lvl], rfl⟩

end Buffer

/-! ## How large a buffer gets -/

/-- The characters stay within the array, and the strings take fewer slots than the limit. -/
structure Within (size : Nat) (a : StrLib.Buffer) : Prop where
  chars : a.chars.length ≤ size
  slots : a.pieces.length < bufferLimit

/-- The loop has two exits: few levels are left over, or it has taken all of them. -/
theorem adjustLoop_exit (lvl toget toplen : Nat) (below : List (List UInt8)) :
    lvl - StrLib.Buffer.adjustLoop lvl toget toplen below + 1 < bufferLimit ∨
      StrLib.Buffer.adjustLoop lvl toget toplen below = toget + below.length := by
  induction below generalizing toget toplen with
  | nil => simp [StrLib.Buffer.adjustLoop]
  | cons s below inductionHypothesis =>
    have next := inductionHypothesis (toget + 1) (toplen + s.length)
    simp only [StrLib.Buffer.adjustLoop, List.length_cons]
    split
    · omega
    · next few => exact .inl (by omega)

theorem adjuststack_slots (a : StrLib.Buffer) : a.adjuststack.pieces.length < bufferLimit := by
  simp only [StrLib.Buffer.adjuststack]
  split
  · next top s below held =>
    have left := adjustLoop_exit a.pieces.length 1 top.length (s :: below)
    have all : 1 + (s :: below).length = a.pieces.length := by simp [held, Nat.add_comm]
    simp only [StrLib.Buffer.concatTop, List.length_cons, List.length_drop]
    simp only [bufferLimit] at *
    omega
  · next few =>
    cases held : a.pieces with
    | nil => simp [bufferLimit]
    | cons top below =>
      cases below with
      | nil => simp [bufferLimit]
      | cons s below => exact absurd held (few top s below)

theorem adjuststack_chars (a : StrLib.Buffer) : a.adjuststack.chars = a.chars := by
  simp only [StrLib.Buffer.adjuststack]
  split <;> rfl

theorem prepbuffer_chars (a : StrLib.Buffer) : a.prepbuffer.chars = [] := by
  have emptied := a.emptybuffer_chars
  simp only [StrLib.Buffer.prepbuffer]
  split
  · next a' put => rw [adjuststack_chars]; rwa [put] at emptied
  · next a' put => rwa [put] at emptied

variable {size : Nat} {a : StrLib.Buffer}

theorem Within.prepbuffer (within : Within size a) (written : List UInt8) (fits : written.length ≤ size) :
    Within size { a.prepbuffer with chars := a.prepbuffer.chars ++ written } := by
  refine ⟨by simpa [prepbuffer_chars] using fits, ?_⟩
  simp only [StrLib.Buffer.prepbuffer]
  split
  · exact adjuststack_slots _
  · next a' put =>
    simp only [StrLib.Buffer.emptybuffer] at put
    split at put
    · simp only [Prod.mk.injEq, true_and] at put
      rw [← put]
      exact within.slots
    · simp at put

theorem Within.addchar (within : Within size a) (positive : 0 < size) (c : UInt8) : Within size (a.addchar size c) := by
  simp only [StrLib.Buffer.addchar]
  split
  · next room => exact ⟨by simpa [Nat.succ_le_iff] using room, within.slots⟩
  · exact within.prepbuffer [c] positive

theorem Within.addgstring (within : Within size a) (positive : 0 < size) (s : List UInt8) :
    Within size (a.addgstring size s) := by
  induction s generalizing a with
  | nil => exact within
  | cons c s inductionHypothesis => exact inductionHypothesis (within.addchar positive c)

theorem Within.addvalue (within : Within size a) (s : List UInt8) : Within size (a.addvalue size s) := by
  have room := within.chars
  simp only [StrLib.Buffer.addvalue]
  split
  · exact ⟨by simp only [List.length_append]; omega, within.slots⟩
  · exact ⟨by simp [adjuststack_chars, a.emptybuffer_chars], adjuststack_slots _⟩

/-! ## Runs -/

namespace BufferOp

/-- What an operation adds to the result. -/
def added : BufferOp α → List UInt8
  | .addchar c => [c]
  | .addgstring s => s
  | .addvalue s => s
  | .prepbuffer written => written
  | .balanced _ => []

/-- No more is written to the space of `gafqL_prepbuffer` than it has. -/
def Fits (size : Nat) : BufferOp α → Prop
  | .prepbuffer written => written.length ≤ size
  | _ => True

instance (size : Nat) : (op : BufferOp α) → Decidable (op.Fits size)
  | .prepbuffer written => inferInstanceAs (Decidable (written.length ≤ size))
  | .addchar _ | .addgstring _ | .addvalue _ | .balanced _ => inferInstanceAs (Decidable True)

/-- The operation on a list of strings. -/
def runPieces (size : Nat) (a : StrLib.Buffer) : BufferOp α → StrLib.Buffer
  | .addchar c => a.addchar size c
  | .addgstring s => a.addgstring size s
  | .addvalue s => a.addvalue size s
  | .prepbuffer written => { a.prepbuffer with chars := a.prepbuffer.chars ++ written }
  | .balanced _ => a

theorem run_represents {b : Buffer α} {base : List (StackValue α)} (held : b.Represents a base) (op : BufferOp α) :
    ∃ b', op.run size b = some b' ∧ b'.Represents (op.runPieces size a) base := by
  cases op with
  | addchar c => exact held.addchar size c
  | addgstring s => exact held.addgstring size s
  | addvalue s => exact held.addvalue size s
  | prepbuffer written =>
    obtain ⟨b', prepared, same⟩ := held.prepbuffer
    exact ⟨_, by simp [BufferOp.run, prepared]; rfl, same.addChars written⟩
  | balanced values => exact ⟨b, by simp [BufferOp.run], held⟩

theorem runPieces_content (a : StrLib.Buffer) (op : BufferOp α) :
    (op.runPieces size a).content = a.content ++ op.added := by
  cases op with
  | prepbuffer written =>
    have kept := a.content_prepbuffer
    simp only [StrLib.Buffer.content, prepbuffer_chars, List.append_nil] at kept
    simp [runPieces, added, StrLib.Buffer.content, prepbuffer_chars, kept]
  | _ => simp [runPieces, added]

theorem runPieces_within (within : Within size a) (positive : 0 < size) (op : BufferOp α) (fits : op.Fits size) :
    Within size (op.runPieces size a) := by
  cases op with
  | addchar c => exact within.addchar positive c
  | addgstring s => exact within.addgstring positive s
  | addvalue s => exact within.addvalue s
  | prepbuffer written => exact within.prepbuffer written fits
  | balanced _ => exact within

end BufferOp

/-- All the operations of a list, from the first. -/
def runAll (size : Nat) (ops : List (BufferOp α)) (b : Buffer α) : Option (Buffer α) :=
  ops.foldlM (BufferOp.run size) b

theorem runAll_represents {b : Buffer α} {base : List (StackValue α)} (positive : 0 < size) (ops : List (BufferOp α))
    (fit : ∀ op ∈ ops, op.Fits size) (held : b.Represents a base) (within : Within size a) :
    ∃ b' a', runAll size ops b = some b' ∧ b'.Represents a' base ∧ Within size a' ∧
      a'.content = a.content ++ (ops.map BufferOp.added).flatten := by
  induction ops generalizing b a with
  | nil => exact ⟨b, a, rfl, held, within, by simp⟩
  | cons op ops inductionHypothesis =>
    obtain ⟨b₁, ran, same⟩ := op.run_represents held
    have kept := op.runPieces_within within positive (fit op List.mem_cons_self)
    obtain ⟨b', a', rest, final, kept', content⟩ :=
      inductionHypothesis (fun op' among => fit op' (List.mem_cons_of_mem _ among)) same kept
    refine ⟨b', a', ?_, final, kept', ?_⟩
    · rw [runAll, List.foldlM_cons, ran]
      exact rest
    · rw [content, BufferOp.runPieces_content, List.map_cons, List.flatten_cons, List.append_assoc]

/-- After any operations the characters are within the array, the strings of the buffer are on top of the
values that were there before and take fewer slots than the limit, and `gafqL_pushresult` would leave the
concatenation of everything that was added. -/
theorem pushresult_concatenation (size : Nat) (positive : 0 < size) (base : List (StackValue α))
    (ops : List (BufferOp α)) (fit : ∀ op ∈ ops, op.Fits size) :
    ∃ b, runAll size ops (buffinit base) = some b ∧
      b.chars.length ≤ size ∧ b.lvl < limit ∧ b.stack.length = b.lvl + base.length ∧
      ∃ b', b.pushresult = some b' ∧ b'.stack = .string (ops.map BufferOp.added).flatten :: base := by
  have started : Within size {} := ⟨by simp, by simp [bufferLimit]⟩
  obtain ⟨b, a, ran, held, within, content⟩ :=
    runAll_represents positive ops fit (Buffer.buffinit_represents base) started
  obtain ⟨b', pushed, stack, -⟩ := held.pushresult
  refine ⟨b, ran, ?_, ?_, ?_, b', pushed, ?_⟩
  · rw [held.chars]
    exact within.chars
  · rw [held.lvl]
    exact within.slots
  · simp [held.stack, held.lvl]
  · rw [stack, StrLib.Buffer.pushresult_eq, content]
    rfl

theorem pushresult_concatenation_example :
    ∃ b, runAll 2 [.addgstring [97, 98, 99], .balanced [.other ()], .addvalue [100, 101], .prepbuffer [102], .addchar 103]
        (buffinit [.other ()]) = some b ∧
      b.chars.length ≤ 2 ∧ b.lvl < limit ∧ b.stack.length = b.lvl + 1 ∧
      ∃ b', b.pushresult = some b' ∧ b'.stack = [.string [97, 98, 99, 100, 101, 102, 103], .other ()] :=
  pushresult_concatenation 2 (by decide) [.other ()] _ (by decide)

end Gafq.AuxLib
