import Gafq.Stream
import Gafq.Verified.LexerStops

/-! # Loading does not depend on the reader

Two readers that deliver the same bytes load the same chunk, wherever they cut the stream into blocks:
`zgetc`, `gafqZ_lookahead` and `gafqZ_read` answer from the bytes that are left.

The reader is not called again after it has signalled the end of the stream, with one exception: if its
first answer is the end, then `f_parser` has asked for it with `gafqZ_lookahead`, and `gafqX_setinput`
asks again.
-/

namespace Gafq.Stream

open Base Lexer Program

variable {reader : Nat → List UInt8} {z z' : ZIO} {N E α : Type} {env : Library N} {fuel : Nat} {parser : Parser N E α}
  {loader : Loader α} {steps : Nat} {ls : LexState N} {stuck : Prop}

/-! ## The end of the stream -/

/-- Since the call number `k` the reader has not signalled the end. -/
def Live (reader : Nat → List UInt8) (k : Nat) (z : ZIO) : Prop :=
  z.n = z.p.length ∧ k ≤ z.calls ∧ ∀ i, k ≤ i → i < z.calls → reader i ≠ []

/-- Since the call number `k` the reader has signalled the end once, and that was its last answer. -/
def Ended (reader : Nat → List UInt8) (k : Nat) (z : ZIO) : Prop :=
  ∀ i, k ≤ i → i + 1 < z.calls → reader i ≠ []

variable {k : Nat}

theorem fill_answers {n : Nat} {p : List UInt8} {calls : Nat} (began : k ≤ calls) (alive : ∀ i, k ≤ i → i < calls → reader i ≠ []) :
    ((fill reader ⟨n, p, calls⟩).1 = none → Ended reader k (fill reader ⟨n, p, calls⟩).2 ∧
      (fill reader ⟨n, p, calls⟩).2 = ⟨n, p, calls + 1⟩) ∧
    ((fill reader ⟨n, p, calls⟩).1 ≠ none → Live reader k (fill reader ⟨n, p, calls⟩).2) := by
  unfold fill
  cases answer : reader calls with
  | nil => exact ⟨fun _ => ⟨fun i after before => alive i after (by simp only at before; omega), rfl⟩, fun some => absurd rfl some⟩
  | cons b rest =>
    refine ⟨nofun, fun _ => ⟨rfl, by simp only; omega, fun i after before => ?_⟩⟩
    by_cases isLast : i = calls
    · rw [isLast, answer]
      exact List.cons_ne_nil _ _
    · exact alive i after (by simp only at before; omega)

theorem zgetc_answers (alive : Live reader k z) :
    ∃ c z', zgetc reader z = some (c, z') ∧ (c = none → Ended reader k z') ∧ (c ≠ none → Live reader k z') := by
  obtain ⟨count, began, alive⟩ := alive
  unfold zgetc
  by_cases inBlock : z.n > 0
  · rw [if_pos inBlock]
    cases block : z.p with
    | nil => simp [count, block] at inBlock
    | cons b rest =>
      refine ⟨some b, _, rfl, nofun, fun _ => ⟨?_, began, alive⟩⟩
      simp [count, block]
  · rw [if_neg inBlock]
    obtain ⟨atEnd, goesOn⟩ := @fill_answers reader k (2 ^ 64 - 1) z.p z.calls began alive
    exact ⟨_, _, rfl, fun isNone => (atEnd isNone).1, goesOn⟩

theorem lookahead_answers (alive : Live reader k z) :
    ∃ c z', lookahead reader z = some (c, z') ∧ (c = none → Ended reader k z' ∧ z' = { z with calls := z.calls + 1 } ∧ z.n = 0) ∧
      (c ≠ none → Live reader k z' ∧ 0 < z'.n) := by
  obtain ⟨count, began, alive⟩ := alive
  unfold lookahead
  by_cases isEmpty : z.n = 0
  · rw [if_pos isEmpty]
    obtain ⟨atEnd, goesOn⟩ := @fill_answers reader k z.n z.p z.calls began alive
    cases filled : fill reader z with
    | mk c z' =>
      rw [show (⟨z.n, z.p, z.calls⟩ : ZIO) = z from rfl, filled] at atEnd goesOn
      cases c with
      | none => exact ⟨none, _, rfl, fun _ => ⟨(atEnd rfl).1, (atEnd rfl).2, isEmpty⟩, fun some => absurd rfl some⟩
      | some b =>
        obtain ⟨count, began, alive⟩ : Live reader k z' := goesOn nofun
        exact ⟨some b, _, rfl, nofun, fun _ => ⟨⟨by simp [count], began, alive⟩, by simp⟩⟩
  · rw [if_neg isEmpty]
    cases block : z.p with
    | nil => simp [count, block] at isEmpty
    | cons b rest =>
      refine ⟨some b, _, rfl, nofun, fun _ => ⟨⟨?_, began, alive⟩, Nat.pos_of_ne_zero isEmpty⟩⟩
      simp [count, block]

theorem readLoop_answers : ∀ {left n : Nat} {z : ZIO} {b : List UInt8}, n ≤ left → Live reader k z →
    ∃ bytes missing z', readLoop reader left n z b = some (bytes, missing, z') ∧
      (missing = 0 → Live reader k z') ∧ (missing ≠ 0 → Ended reader k z')
  | 0, n, z, b, enough, alive => ⟨b, n, z, rfl, fun _ => alive, fun missing => absurd (Nat.le_zero.1 enough) missing⟩
  | left + 1, n, z, b, enough, alive => by
    unfold readLoop
    by_cases finished : n = 0
    · rw [if_pos finished]
      exact ⟨b, 0, z, rfl, fun _ => alive, fun missing => absurd rfl missing⟩
    · rw [if_neg finished]
      obtain ⟨c, z', looked, atEnd, goesOn⟩ := lookahead_answers alive
      rw [looked]
      cases c with
      | none => exact ⟨b, n, z', rfl, fun none => absurd none finished, fun _ => (atEnd rfl).1⟩
      | some c =>
        obtain ⟨⟨count, began, alive'⟩, positive⟩ := goesOn nofun
        simp only
        rw [if_pos (by omega)]
        exact readLoop_answers (by omega) ⟨by simp only [List.length_drop]; omega, began, alive'⟩

/-- What a run leaves. -/
theorem Loader.runFrom_answers (alive : Live reader k z) :
    ∃ r z', loader.runFrom reader z = some (r, z') ∧ (Live reader k z' ∨ Ended reader k z') := by
  induction loader generalizing z with
  | done a => exact ⟨.ok a, z, rfl, .inl alive⟩
  | fail e => exact ⟨.error e, z, rfl, .inl alive⟩
  | block size next inductionHypothesis =>
    obtain ⟨bytes, missing, z', ran, goesOn, atEnd⟩ := @readLoop_answers reader k size size z [] (Nat.le_refl _) alive
    rw [Loader.runFrom, Stream.read, ran]
    simp only
    by_cases short : missing ≠ 0
    · rw [if_pos short]
      exact ⟨_, _, rfl, .inr (atEnd short)⟩
    · rw [if_neg short]
      exact inductionHypothesis bytes (goesOn (not_not.1 short))

/-! ## The parser -/

/-- What a parser returns is not an error of the lexer. -/
def Parsed (r : Except (LoadFailure E) α) : Prop := ∀ e, r ≠ .error (.lexer e)

theorem parse_stops : ∀ {steps togo : Nat} {s : parser.State} {ls : LexState N}, (togo < fuel ∨ stuck) → Synced togo ls →
    Lexer.Stops stuck (parse env fuel parser steps s ls) togo fun _ r => Parsed r
  | 0, _, _, _, _, _ => fun _ => nofun
  | steps + 1, togo, s, ls, enough, synced => by
    unfold parse
    cases parser.step s ls with
    | finish r => cases r <;> exact fun _ => nofun
    | next s =>
      apply (gafqXNext_stops enough synced).bind
      rintro togo' ls' ⟨le, synced'⟩
      exact parse_stops (enough.imp_left (by omega)) synced'
    | lookahead s =>
      apply (gafqXLookahead_stops enough synced).bind
      rintro togo' ls' ⟨le, synced'⟩
      exact parse_stops (enough.imp_left (by omega)) synced'

theorem gafqYParser_stops {togo : Nat} (enough : togo < fuel ∨ stuck) (more : 0 < togo) :
    Lexer.Stops stuck (gafqYParser env fuel parser steps ls) togo fun _ r => Parsed r := by
  apply (setinput_stops more).bind
  rintro togo' ls' ⟨le, synced⟩
  exact parse_stops (enough.imp_left (by omega)) synced

theorem fill_calls (z : ZIO) : (fill reader z).2.calls = z.calls + 1 := by
  unfold fill
  split <;> rfl

theorem zgetc_calls {c : Option UInt8} (got : zgetc reader z = some (c, z')) : z.calls ≤ z'.calls := by
  unfold zgetc at got
  split at got
  · split at got
    · cases got
    · cases got
      exact Nat.le_refl _
  · rw [← congrArg (fun answer => answer.2.calls) (Option.some.inj got), fill_calls]
    exact Nat.le_succ _

/-- The parser gets a character. -/
theorem gafqYParser_gets : ∃ next, gafqYParser env fuel parser steps ls = .get next := ⟨_, rfl⟩

/-! ## The bytes of the stream -/

/-- A reader that delivers the blocks one after another and then signals the end. -/
def ofBlocks (blocks : List (List UInt8)) (i : Nat) : List UInt8 := blocks.getD i []

section Blocks

variable {blocks : List (List UInt8)} {l : List UInt8}

/-- The bytes that can still be read from the stream. -/
def Holds (blocks : List (List UInt8)) (z : ZIO) (l : List UInt8) : Prop :=
  z.n = z.p.length ∧ z.p ++ (blocks.drop z.calls).flatten = l

variable (nonempty : ∀ block ∈ blocks, block ≠ [])

include nonempty in
/-- At the end of the bytes the reader signals the end. -/
theorem ofBlocks_nil {calls : Nat} (content : (blocks.drop calls).flatten = []) :
    ofBlocks blocks calls = [] ∧ (blocks.drop (calls + 1)).flatten = [] := by
  have atEnd : blocks.length ≤ calls := by
    by_contra inside
    rw [List.drop_eq_getElem_cons (Nat.not_le.1 inside), List.flatten_cons, List.append_eq_nil_iff] at content
    exact nonempty _ (List.getElem_mem (Nat.not_le.1 inside)) content.1
  exact ⟨by simp [ofBlocks, atEnd], by simp [List.drop_eq_nil_of_le (show blocks.length ≤ calls + 1 by omega)]⟩

include nonempty in
/-- Before the end the reader's answer begins with the next byte. -/
theorem ofBlocks_cons {calls : Nat} {b : UInt8} (content : (blocks.drop calls).flatten = b :: l) :
    ∃ rest, ofBlocks blocks calls = b :: rest ∧ rest ++ (blocks.drop (calls + 1)).flatten = l := by
  have inside : calls < blocks.length := by
    by_contra atEnd
    rw [List.drop_eq_nil_of_le (Nat.not_lt.1 atEnd)] at content
    cases content
  rw [List.drop_eq_getElem_cons inside, List.flatten_cons] at content
  have answer : ofBlocks blocks calls = blocks[calls] := by simp [ofBlocks, inside]
  cases isBlock : blocks[calls] with
  | nil => exact absurd isBlock (nonempty _ (List.getElem_mem inside))
  | cons c rest =>
    rw [isBlock, List.cons_append] at content
    obtain ⟨rfl, others⟩ := List.cons.inj content
    exact ⟨rest, answer.trans isBlock, others⟩

include nonempty in
theorem zgetc_nil (content : Holds blocks z []) : ∃ z', zgetc (ofBlocks blocks) z = some (none, z') := by
  obtain ⟨count, content⟩ := content
  obtain ⟨used, content⟩ := List.append_eq_nil_iff.1 content
  have answer := (ofBlocks_nil nonempty content).1
  rw [used] at count
  exact ⟨_, by simp [zgetc, count, fill, answer]; rfl⟩

include nonempty in
theorem zgetc_cons {b : UInt8} (content : Holds blocks z (b :: l)) :
    ∃ z', zgetc (ofBlocks blocks) z = some (some b, z') ∧ Holds blocks z' l := by
  obtain ⟨count, content⟩ := content
  cases block : z.p with
  | nil =>
    rw [block] at count content
    obtain ⟨rest, answer, content⟩ := ofBlocks_cons nonempty content
    exact ⟨⟨rest.length, rest, z.calls + 1⟩, by simp [zgetc, count, fill, answer], rfl, content⟩
  | cons c rest =>
    rw [block] at count content
    obtain ⟨rfl, others⟩ := List.cons.inj content
    exact ⟨⟨z.n - 1, rest, z.calls⟩, by simp [zgetc, count, block], by simp [count], others⟩

include nonempty in
theorem lookahead_holds (content : Holds blocks z l) :
    ∃ z', lookahead (ofBlocks blocks) z = some (l.head?, z') ∧ Holds blocks z' l ∧ (l ≠ [] → 0 < z'.n) := by
  obtain ⟨count, content⟩ := content
  cases block : z.p with
  | nil =>
    rw [block] at count content
    cases l with
    | nil =>
      obtain ⟨answer, content⟩ := ofBlocks_nil nonempty content
      exact ⟨{ z with calls := z.calls + 1 }, by simp [lookahead, count, fill, answer], ⟨by simp [count, block], by simp [block, content]⟩, nofun⟩
    | cons b l =>
      obtain ⟨rest, answer, content⟩ := ofBlocks_cons nonempty content
      exact ⟨⟨rest.length + 1, b :: rest, z.calls + 1⟩, by simp [lookahead, count, fill, answer], ⟨rfl, by simp [content]⟩,
        fun _ => Nat.succ_pos _⟩
  | cons c rest =>
    rw [block] at count content
    subst content
    exact ⟨⟨z.n, c :: rest, z.calls⟩, by simp [lookahead, count, block], ⟨count, rfl⟩, fun _ => by simp [count]⟩

include nonempty in
theorem readLoop_holds : ∀ {left n : Nat} {z : ZIO} {l b : List UInt8}, n ≤ left → Holds blocks z l →
    ∃ z', readLoop (ofBlocks blocks) left n z b = some (b ++ l.take n, n - l.length, z') ∧ Holds blocks z' (l.drop n)
  | 0, n, z, l, b, enough, content => by
    obtain rfl : n = 0 := Nat.le_zero.1 enough
    exact ⟨z, by simp [readLoop], content⟩
  | left + 1, n, z, l, b, enough, content => by
    unfold readLoop
    by_cases finished : n = 0
    · subst finished
      exact ⟨z, by simp, content⟩
    · obtain ⟨z', looked, content', more⟩ := lookahead_holds nonempty content
      rw [if_neg finished, looked]
      cases l with
      | nil => exact ⟨z', by simp, by simpa using content'⟩
      | cons c l =>
        have positive := more (List.cons_ne_nil _ _)
        obtain ⟨count, content'⟩ := content'
        simp only [List.head?_cons]
        have fits : min n z'.n ≤ z'.p.length := by omega
        rw [if_pos fits]
        -- the part that is copied
        have copied : z'.p.take (min n z'.n) = (c :: l).take (min n z'.n) := by
          rw [← content', List.take_append_of_le_length fits]
        have left' : Holds blocks { z' with n := z'.n - min n z'.n, p := z'.p.drop (min n z'.n) } ((c :: l).drop (min n z'.n)) := by
          refine ⟨by simp only [List.length_drop]; omega, ?_⟩
          rw [← content', List.drop_append_of_le_length fits]
        obtain ⟨z'', ran, content''⟩ := readLoop_holds (n := n - min n z'.n) (b := b ++ z'.p.take (min n z'.n)) (by omega : _ ≤ left) left'
        refine ⟨z'', ?_, ?_⟩
        · rw [ran, copied, List.append_assoc, ← List.take_add]
          have length := congrArg List.length content'
          simp only [List.length_append, List.length_cons] at length
          simp only [List.length_drop, List.length_cons]
          rw [show min n z'.n + (n - min n z'.n) = n by omega,
            show n - min n z'.n - (l.length + 1 - min n z'.n) = n - (l.length + 1) by omega]
        · rw [List.drop_drop] at content''
          rwa [show min n z'.n + (n - min n z'.n) = n by omega] at content''

include nonempty in
theorem Loader.runFrom_run (content : Holds blocks z l) :
    ∃ z', loader.runFrom (ofBlocks blocks) z = some ((loader.run l).map Prod.fst, z') := by
  induction loader generalizing z l with
  | done a => exact ⟨z, rfl⟩
  | fail e => exact ⟨z, rfl⟩
  | block size next inductionHypothesis =>
    obtain ⟨z', ran, content'⟩ := readLoop_holds nonempty (b := []) (Nat.le_refl size) content
    rw [Loader.runFrom, Stream.read, ran, Loader.run]
    simp only
    by_cases short : l.length < size
    · rw [if_pos (by omega), if_pos short]
      exact ⟨z', rfl⟩
    · rw [if_neg (by omega), if_neg short]
      exact inductionHypothesis _ content'

end Blocks

/-! ## Loading -/

/-- What is loaded from the bytes of a stream. -/
def loaded (env : Library N) (fuel : Nat) (parser : Parser N E α) (loader : Loader α) (steps : Nat) (ls : LexState N)
    (l : List UInt8) : Except (LoadFailure E) α :=
  if l.head? = signature.head? then ((loader.run l).map Prod.fst).mapError .chunk
  else textResult (((gafqYParser env fuel parser steps ls).run l).map Prod.fst)

theorem load_ofBlocks {blocks : List (List UInt8)} (nonempty : ∀ block ∈ blocks, block ≠ []) :
    (load env fuel parser loader (ofBlocks blocks) steps ls).map Prod.fst =
      some (loaded env fuel parser loader steps ls blocks.flatten) := by
  have content : Holds blocks init blocks.flatten := ⟨rfl, by simp [init]⟩
  obtain ⟨z, looked, content, -⟩ := lookahead_holds nonempty content
  simp only [load, fParser, looked, loaded]
  by_cases isBinary : blocks.flatten.head? = signature.head?
  · obtain ⟨z', ran⟩ : ∃ z', loader.runFrom (ofBlocks blocks) z = some ((loader.run blocks.flatten).map Prod.fst, z') :=
      Loader.runFrom_run nonempty content
    simp only [isBinary, if_true, ran, Option.map_some]
  · obtain ⟨z', ran⟩ := Careful.runFrom_run (fun _ _ _ => zgetc_cons nonempty) (fun _ => zgetc_nil nonempty)
      (@gafqYParser_stops N E α env fuel parser steps ls True _ (.inr trivial) (Nat.succ_pos _)) content
    simp only [isBinary, if_false, ran, Option.map_some]

/-- With as much fuel as there are bytes, the lexer does not run out of it. -/
theorem loaded_fuel {l : List UInt8} (enough : l.length + 1 < fuel) :
    loaded env fuel parser loader steps ls l ≠ .error (.lexer .outOfFuel) := by
  unfold loaded
  split
  · cases (loader.run l).map Prod.fst <;> exact nofun
  · have careful := (@gafqYParser_stops N E α env fuel parser steps ls False (l.length + 1) (.inl enough) (Nat.succ_pos _)).run
    cases ran : (gafqYParser env fuel parser steps ls).run l with
    | ok r =>
      rw [ran] at careful
      obtain ⟨_, parsed, -⟩ := careful
      exact parsed .outOfFuel
    | error e =>
      rw [ran] at careful
      intro isLexer
      exact careful (by injection isLexer with isLexer; injection isLexer)

/-! ## The loader of precompiled chunks -/

/-- `m` gets its bytes with `LoadBlock`. -/
def IsLoader (m : LoadM α) : Prop :=
  ∃ loader : Loader α, ∀ z : Zio, (m z).map (fun r => (r.1, r.2.content)) = loader.run z.content

theorem Loader.run_bind {γ : Type} (loader : Loader α) (f : α → Loader γ) (l : List UInt8) :
    (loader.bind f).run l = loader.run l >>= fun r => (f r.1).run r.2 := by
  induction loader generalizing l with
  | done a => rfl
  | fail e => rfl
  | block size next inductionHypothesis =>
    simp only [Loader.bind, Loader.run]
    split
    · rfl
    · exact inductionHypothesis _ _

namespace IsLoader

theorem pure (a : α) : IsLoader (pure a : LoadM α) := ⟨.done a, fun _ => rfl⟩

theorem throw (e : LoadError) : IsLoader (throw e : LoadM α) := ⟨.fail e, fun _ => rfl⟩

theorem bind {γ : Type} {m : LoadM α} {f : α → LoadM γ} (first : IsLoader m) (rest : ∀ a, IsLoader (f a)) : IsLoader (m >>= f) := by
  obtain ⟨loader, runs⟩ := first
  choose next runs' using rest
  refine ⟨loader.bind next, fun z => ?_⟩
  rw [Loader.run_bind, ← runs]
  change Except.map _ (m z >>= fun r => f r.1 r.2) = _
  cases m z with
  | error e => rfl
  | ok r => exact runs' r.1 r.2

theorem ite {c : Prop} [Decidable c] {m m' : LoadM α} (whenTrue : IsLoader m) (whenFalse : IsLoader m') :
    IsLoader (if c then m else m') := by
  split
  · exact whenTrue
  · exact whenFalse

theorem repeated {m : LoadM α} (each : IsLoader m) : ∀ n, IsLoader (repeatDecoder m n)
  | 0 => pure []
  | n + 1 => each.bind fun x => (repeated each n).bind fun xs => pure (x :: xs)

theorem loadBlock (size : Nat) : IsLoader (loadBlock size) := by
  refine ⟨.block size .done, fun z => ?_⟩
  simp only [Gafq.loadBlock, Loader.run]
  by_cases complete : (z.read size).missing = 0
  · obtain ⟨length, split⟩ := Zio.read_complete complete
    have enough : ¬ z.content.length < size := by
      rw [split, List.length_append]
      omega
    have taken : z.content.take size = (z.read size).bytes := by rw [split, List.take_left' length]
    have dropped : z.content.drop size = (z.read size).stream.content := by rw [split, List.drop_left' length]
    rw [if_neg (not_not.2 complete), if_neg enough, taken, dropped]
    rfl
  · have short : z.content.length < size := by
      by_contra enough
      have split : z.content = z.content.take size ++ z.content.drop size := (List.take_append_drop _ _).symm
      obtain ⟨z', ran, -⟩ := Zio.read_content split
      rw [List.length_take_of_le (Nat.not_lt.1 enough)] at ran
      exact complete (by rw [ran])
    rw [if_pos complete, if_pos short]
    rfl

variable {cfg : BuildConfig}

theorem loadInt : IsLoader (loadInt cfg) := (loadBlock _).bind fun _ => ite (throw _) (pure _)

theorem loadByte : IsLoader Gafq.loadByte := (loadBlock 1).bind fun _ => pure _

theorem loadString : IsLoader (loadString cfg) :=
  (loadBlock _).bind fun _ => ite (pure _) ((loadBlock _).bind fun _ => pure _)

theorem loadVector {m : LoadM α} (each : IsLoader m) : IsLoader (loadVector cfg m) :=
  loadInt.bind fun n => each.repeated n.toNat

theorem loadConstant : IsLoader (loadConstant cfg) :=
  loadByte.bind fun _ => ite (pure _) (ite (loadByte.bind fun _ => pure _)
    (ite ((loadBlock _).bind fun _ => pure _) (ite (loadString.bind fun _ => pure _) (throw _))))

theorem loadLocVar : IsLoader (loadLocVar cfg) :=
  loadString.bind fun _ => loadInt.bind fun _ => loadInt.bind fun _ => pure _

theorem loadFunction : ∀ (levels : Nat) (p : Option TString), IsLoader (loadFunction cfg levels p)
  | 0, _ => throw _
  | levels + 1, _ =>
    loadString.bind fun _ => loadInt.bind fun _ => loadInt.bind fun _ => loadByte.bind fun _ => loadByte.bind fun _ =>
      loadByte.bind fun _ => loadByte.bind fun _ => (loadVector ((loadBlock _).bind fun _ => pure _)).bind fun _ =>
      (loadVector loadConstant).bind fun _ => (loadVector (loadFunction levels _)).bind fun _ =>
      (loadVector ((loadBlock _).bind fun _ => pure _)).bind fun _ => (loadVector loadLocVar).bind fun _ =>
      (loadVector loadString).bind fun _ => ite (pure _) (throw _)

theorem undump (nCcalls : Nat) : IsLoader (undump cfg nCcalls) :=
  ((loadBlock _).bind fun _ => ite (pure _) (throw _)).bind fun _ => loadFunction _ _

end IsLoader

theorem upToEnd_flatten {blocks : List (List UInt8)} (nonempty : ∀ block ∈ blocks, block ≠ []) :
    Zio.upToEnd blocks = blocks.flatten := by
  induction blocks with
  | nil => rfl
  | cons block blocks inductionHypothesis =>
    rw [Zio.upToEnd, if_neg (nonempty block List.mem_cons_self), List.flatten_cons,
      inductionHypothesis fun other member => nonempty other (List.mem_cons_of_mem _ member)]

/-- `undump` is what is loaded from a precompiled chunk. -/
theorem load_undump (cfg : BuildConfig) (nCcalls : Nat) : ∃ loader : Loader Proto, ∀ (parser : Parser N E Proto)
    (blocks : List (List UInt8)), (∀ block ∈ blocks, block ≠ []) → blocks.flatten.head? = signature.head? →
    (load env fuel parser loader (ofBlocks blocks) steps ls).map Prod.fst =
      some (((undump cfg nCcalls (Zio.init blocks)).map Prod.fst).mapError .chunk) := by
  obtain ⟨loader, runs⟩ := @IsLoader.undump cfg nCcalls
  refine ⟨loader, fun parser blocks nonempty isBinary => ?_⟩
  have content : (Zio.init blocks).content = blocks.flatten := by simp [Zio.content, Zio.init, upToEnd_flatten nonempty]
  rw [load_ofBlocks nonempty, loaded, if_pos isBinary, ← content, ← runs]
  cases undump cfg nCcalls (Zio.init blocks) <;> rfl

/-! ## Blocks -/

/-- However a reader cuts a stream into blocks, the same chunk is loaded or the same error is raised. -/
theorem load_blocks {blocks blocks' : List (List UInt8)} (nonempty : ∀ block ∈ blocks, block ≠ [])
    (nonempty' : ∀ block ∈ blocks', block ≠ []) (same : blocks.flatten = blocks'.flatten) :
    (load env fuel parser loader (ofBlocks blocks) steps ls).map Prod.fst =
      (load env fuel parser loader (ofBlocks blocks') steps ls).map Prod.fst ∧
    ∃ r, (load env fuel parser loader (ofBlocks blocks) steps ls).map Prod.fst = some r ∧
      (blocks.flatten.length + 1 < fuel → r ≠ .error (.lexer .outOfFuel)) := by
  rw [load_ofBlocks nonempty, load_ofBlocks nonempty', same]
  exact ⟨rfl, _, rfl, loaded_fuel⟩

/-- A parser that returns the tokens before the end. -/
def tokenParser : Parser Unit Unit (List Nat) where
  State := Option (List Nat)
  start := none
  step := fun
    | none, _ => .next (some [])
    | some found, ls => if ls.t.token = tkEos then .finish (.ok found) else .next (some (found ++ [ls.t.token]))

/-- No answer of the reader but the first one can be the end of the stream and not its last answer; and if the
first one is, then there is another one. -/
theorem load_calls : ∃ r z, load env fuel parser loader reader steps ls = some (r, z) ∧
    (∀ i, i + 1 < z.calls → reader i = [] → i = 0) ∧ (reader 0 = [] → 1 < z.calls) := by
  cases answer : reader 0 with
  | nil =>
    have looked : lookahead reader init = some (none, ⟨0, [], 1⟩) := by simp [lookahead, init, fill, answer]
    have alive : Live reader 1 ⟨0, [], 1⟩ := ⟨rfl, Nat.le_refl _, fun i after before => by simp only at before; omega⟩
    obtain ⟨r, z, ran, final⟩ := Careful.runFrom_ends (fun _ => zgetc_answers)
      (fun togo => @gafqYParser_stops N E α env fuel parser steps ls True (togo + 1) (.inr trivial) (Nat.succ_pos _)) alive
    refine ⟨textResult r, z, by simp [load, fParser, looked, ran, signature], fun i before isEnd => ?_, fun _ => ?_⟩
    · by_contra later
      obtain goesOn | atEnd := final
      · exact goesOn.2.2 i (by omega) (by omega) isEnd
      · exact atEnd i (by omega) before isEnd
    · obtain ⟨next, isGet⟩ := @gafqYParser_gets N E α env fuel parser steps ls
      rw [isGet, runFrom] at ran
      have more : ∀ s c s', zgetc reader s = some (c, s') → 1 < s.calls → 1 < s'.calls :=
        fun s c s' got more => Nat.lt_of_lt_of_le more (zgetc_calls got)
      -- `gafqX_setinput' has called the reader
      apply runFrom_keeps more ran
      show 1 < (fill reader ⟨2 ^ 64 - 1, [], 1⟩).2.calls
      rw [fill_calls]
      exact Nat.one_lt_two
  | cons b rest =>
    have looked : lookahead reader init = some (some b, ⟨rest.length + 1, b :: rest, 1⟩) := by
      simp [lookahead, init, fill, answer]
    have alive : Live reader 0 ⟨rest.length + 1, b :: rest, 1⟩ := by
      refine ⟨rfl, Nat.zero_le _, fun i _ before => ?_⟩
      obtain rfl : i = 0 := by simp only at before; omega
      rw [answer]
      exact List.cons_ne_nil _ _
    have kept : ∀ {z}, Live reader 0 z ∨ Ended reader 0 z → ∀ i, i + 1 < z.calls → reader i = [] → i = 0 := by
      intro z final i before isEnd
      obtain goesOn | atEnd := final
      · exact absurd isEnd (goesOn.2.2 i (Nat.zero_le _) (by omega))
      · exact absurd isEnd (atEnd i (Nat.zero_le _) before)
    by_cases isBinary : some b = signature.head?
    · obtain ⟨r, z, ran, final⟩ := loader.runFrom_answers alive
      exact ⟨r.mapError .chunk, z, by simp [load, fParser, looked, ran, isBinary], kept final, by rintro ⟨⟩⟩
    · obtain ⟨r, z, ran, final⟩ := Careful.runFrom_ends (fun _ => zgetc_answers)
        (fun togo => @gafqYParser_stops N E α env fuel parser steps ls True (togo + 1) (.inr trivial) (Nat.succ_pos _)) alive
      exact ⟨textResult r, z, by simp [load, fParser, looked, ran, isBinary], kept final, by rintro ⟨⟩⟩

/-- A reader that has nothing to deliver is asked twice. -/
theorem load_calls_empty : (load noNumbers 1 tokenParser (.done []) (fun _ => []) 2 blankState).map (fun r => r.2.calls) = some 2 := by
  decide

/-- A loader of chunks that reads the signature and the byte after it. -/
def signatureLoader : Loader (List Nat) :=
  .block 5 fun first => if first = signature then .block 1 fun version => .done (version.map UInt8.toNat) else .fail .badHeader

/-- A text and a binary chunk. -/
theorem load_blocks_return :
    (load noNumbers 9 tokenParser (.done []) (ofBlocks (["re", "turn;"].map bytes)) 9 blankState).map Prod.fst =
      (load noNumbers 9 tokenParser (.done []) (ofBlocks (["r", "eturn", ";"].map bytes)) 9 blankState).map Prod.fst ∧
    (load noNumbers 9 tokenParser signatureLoader (ofBlocks [[27, 71], [97, 102, 113, 81]]) 9 blankState).map Prod.fst =
      (load noNumbers 9 tokenParser signatureLoader (ofBlocks [[27], [71, 97, 102], [113, 81]]) 9 blankState).map Prod.fst ∧
    (load noNumbers 9 tokenParser signatureLoader (ofBlocks [[27, 71], [97, 102, 113, 81]]) 9 blankState).map Prod.fst =
      some (.ok [81]) :=
  ⟨(load_blocks (by decide) (by decide) (by decide)).1, (load_blocks (by decide) (by decide) (by decide)).1, by decide⟩

end Gafq.Stream
