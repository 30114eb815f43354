import Gafq.Base.Ensures
import Gafq.Base.Returned
import Gafq.Compiler.Grammar
import Gafq.Verified.TableRefinement

/-! # The line of the last token

`gafqX_next` takes the line counter for the line of the token that it consumes.  A look-ahead has moved the
counter to the line of the next token, and `funcargs`, which compares the two lines, does not see then that
an opening parenthesis stands on a line of its own.
-/

namespace Gafq.Compiler

open Lexer Code Base
open Gafq.Parser (tok)

variable {N : Type}

/-! ## Streams of tokens -/

/-- What the lexer returns: tokens before the end of the stream, on lines that never go back. -/
structure TokenStream (N : Type) where
  tokens : List (Token N × Nat)
  eosLine : Nat
  notEos : ∀ t ∈ tokens, t.1.token ≠ tkEos
  ordered : (tokens.map Prod.snd ++ [eosLine]).Pairwise (· ≤ ·)

namespace TokenStream

/-- The token with this number; the end of the stream is returned again and again. -/
def tokenAt [GafqNumber N] (s : TokenStream N) (i : Nat) : Token N := ((s.tokens[i]?).map Prod.fst).getD eosToken

def line (s : TokenStream N) (i : Nat) : Nat := ((s.tokens[i]?).map Prod.snd).getD s.eosLine

end TokenStream

/-- What the lexer has done so far is the same. -/
structure SameTokens (ls ls' : LexState N) : Prop where
  t : ls'.t = ls.t
  lookahead : ls'.lookahead = ls.lookahead
  linenumber : ls'.linenumber = ls.linenumber
  lastline : ls'.lastline = ls.lastline
  rest : ls'.rest = ls.rest
  eosLine : ls'.eosLine = ls.eosLine

theorem SameTokens.refl (ls : LexState N) : SameTokens ls ls := ⟨rfl, rfl, rfl, rfl, rfl, rfl⟩

section

variable [GafqNumber N] (env : Env N) (s : TokenStream N)

/-- Reading the stream: `i` is the number of the current token, `ahead` whether the next one has been looked
at, and `seen` whether the current one had been.  A parser looks ahead of a name. -/
inductive Reading : (i : Nat) → (ahead seen : Bool) → LexState N → Prop where
  | first {nCcalls address : Nat} {ls : LexState N} :
      next env (initial s.tokens s.eosLine nCcalls address) = .ok () ls → Reading 0 false false ls
  | next {i : Nat} {ahead seen : Bool} {ls ls' : LexState N} :
      Reading i ahead seen ls → next env ls = .ok () ls' → Reading (i + 1) false ahead ls'
  | lookahead {i : Nat} {seen : Bool} {ls ls' : LexState N} :
      Reading i false seen ls → ls.t.token = tkName → lookahead env ls = .ok () ls' → Reading i true seen ls'
  /-- the parser does something else -/
  | other {i : Nat} {ahead seen : Bool} {ls ls' : LexState N} :
      Reading i ahead seen ls → SameTokens ls ls' → Reading i ahead seen ls'

end

/-! ## What the functions do to the state -/

theorem gen_state {α : Type} (m : CodeM N α) (ls : LexState N) :
    (∃ a fs, gen m ls = .ok a { ls with fs }) ∨ ∃ e fs, gen m ls = .error (locate ls e) { ls with fs } := by
  simp only [gen]
  cases m { ls.fs with lastline := ls.lastline } with
  | ok a fs => exact .inl ⟨a, fs, rfl⟩
  | error e fs => exact .inr ⟨e, fs, rfl⟩

theorem gen_sameTokens {α : Type} {m : CodeM N α} {ls ls' : LexState N} {a : α} (ran : gen m ls = .ok a ls') :
    SameTokens ls ls' := by
  obtain ⟨b, fs, same⟩ | ⟨e, fs, failed⟩ := gen_state m ls
  · rw [same] at ran
    cases ran
    exact ⟨rfl, rfl, rfl, rfl, rfl, rfl⟩
  · rw [failed] at ran
    cases ran

variable [GafqNumber N] {env : Env N} {s : TokenStream N}

/-- The token that `glex` returns, and the line that it has reached. -/
theorem glex_returned {ls ls' : LexState N} {t : Token N} (ran : glex env ls = .ok t ls') :
    SameTokens { ls with linenumber := (ls.rest.head?.map Prod.snd).getD ls.eosLine, rest := ls.rest.tail } ls' ∧
      t = (ls.rest.head?.map Prod.fst).getD eosToken := by
  simp only [glex, bind_returned, get_returned] at ran
  obtain ⟨_, _, ⟨got, same⟩, ran⟩ := ran
  rw [got, same] at ran
  cases read : ls.rest with
  | nil =>
    simp only [read, bind_returned, set_returned, pure_returned] at ran
    obtain ⟨_, _, rfl, rfl, rfl⟩ := ran
    exact ⟨⟨rfl, rfl, rfl, rfl, rfl, rfl⟩, rfl⟩
  | cons head rest =>
    obtain ⟨token, line⟩ := head
    simp only [read, bind_returned, set_returned] at ran
    obtain ⟨_, _, rfl, ran⟩ := ran
    cases text : tokenString token with
    | none =>
      simp only [text, pure_returned] at ran
      rw [ran.1, ran.2]
      exact ⟨⟨rfl, rfl, rfl, rfl, rfl, rfl⟩, rfl⟩
    | some name =>
      simp only [text, bind_returned, pure_returned] at ran
      obtain ⟨_, _, string, rfl, rfl⟩ := ran
      exact ⟨gen_sameTokens string, rfl⟩

/-! ## The state while reading -/

/-- What the fields of the lexer are. -/
structure Reads (s : TokenStream N) (i : Nat) (ahead seen : Bool) (ls : LexState N) : Prop where
  t : ls.t = s.tokenAt i
  none : ahead = false → ls.lookahead.token = tkEos
  lookahead : ahead = true → ls.lookahead = s.tokenAt (i + 1)
  ofName : ahead = true → ls.t.token = tkName
  linenumber : ls.linenumber = s.line (if ahead then i + 1 else i)
  lastline : 0 < i → ls.lastline = s.line (if seen then i else i - 1)
  rest : ls.rest = s.tokens.drop (if ahead then i + 2 else i + 1)
  eosLine : ls.eosLine = s.eosLine

theorem head_drop (s : TokenStream N) (i : Nat) : ((s.tokens.drop i).head?.map Prod.fst).getD eosToken = s.tokenAt i := by
  simp [TokenStream.tokenAt]

omit [GafqNumber N] in
theorem head_drop_line (s : TokenStream N) (i : Nat) :
    ((s.tokens.drop i).head?.map Prod.snd).getD s.eosLine = s.line i := by
  simp [TokenStream.line]

/-- The end of the stream is the only token that says so. -/
theorem TokenStream.drop_of_eos (s : TokenStream N) {i : Nat} (eos : (s.tokenAt i).token = tkEos) : s.tokens.drop i = [] := by
  cases found : s.tokens[i]? with
  | none => simpa using found
  | some t =>
    have among := s.notEos t (List.mem_of_getElem? found)
    rw [TokenStream.tokenAt, found] at eos
    exact absurd eos among

theorem Reads.congr {i : Nat} {ahead seen : Bool} {ls ls' : LexState N} (reads : Reads s i ahead seen ls)
    (same : SameTokens ls ls') : Reads s i ahead seen ls' := by
  constructor
  · rw [same.t]
    exact reads.t
  · rw [same.lookahead]
    exact reads.none
  · rw [same.lookahead]
    exact reads.lookahead
  · rw [same.t]
    exact reads.ofName
  · rw [same.linenumber]
    exact reads.linenumber
  · rw [same.lastline]
    exact reads.lastline
  · rw [same.rest]
    exact reads.rest
  · rw [same.eosLine]
    exact reads.eosLine

/-- `gafqX_next` makes the next token the current one, and takes the line counter for the line of the last. -/
theorem next_reads {i : Nat} {ahead : Bool} {ls ls' : LexState N}
    (none : ahead = false → ls.lookahead.token = tkEos) (peeked : ahead = true → ls.lookahead = s.tokenAt i)
    (linenumber : ahead = true → ls.linenumber = s.line i)
    (rest : ls.rest = s.tokens.drop (if ahead then i + 1 else i)) (eosLine : ls.eosLine = s.eosLine)
    (lastline : 0 < i → ls.linenumber = s.line (if ahead then i else i - 1))
    (ran : next env ls = .ok () ls') : Reads s i false ahead ls' := by
  simp only [next, bind_returned, modify_returned, get_returned] at ran
  obtain ⟨_, _, rfl, _, _, ⟨got, same⟩, ran⟩ := ran
  rw [got, same] at ran
  by_cases pending : ls.lookahead.token = tkEos
  · -- also when the end of the stream has been looked at
    have left : ls.rest = s.tokens.drop i := by
      cases ahead with
      | false => simpa using rest
      | true =>
        have ended := s.drop_of_eos (i := i) (by rw [← peeked rfl, pending])
        have later : s.tokens.drop (i + 1) = [] := by rw [← List.drop_drop, ended, List.drop_nil]
        simpa [ended, later] using rest
    simp only [pending, ne_eq, not_true_eq_false, if_false, bind_returned, modify_returned] at ran
    obtain ⟨t, ls₁, lexed, rfl⟩ := ran
    obtain ⟨same, token⟩ := glex_returned lexed
    simp only [left, eosLine, head_drop, head_drop_line, List.tail_drop] at same token
    constructor
    case t => exact token
    case none => exact fun _ => (congrArg Token.token same.lookahead).trans pending
    case lookahead => exact nofun
    case ofName => exact nofun
    case linenumber => exact same.linenumber
    case lastline => exact fun positive => same.lastline.trans (lastline positive)
    case rest => exact same.rest
    case eosLine => exact same.eosLine
  · cases ahead with
    | false => exact absurd (none rfl) pending
    | true =>
      simp only [ne_eq, pending, not_false_eq_true, if_true, set_returned] at ran
      subst ran
      exact ⟨peeked rfl, fun _ => rfl, nofun, nofun, linenumber rfl, lastline, rest, eosLine⟩

theorem Reading.reads {i : Nat} {ahead seen : Bool} {ls : LexState N} (reading : Reading env s i ahead seen ls) :
    Reads s i ahead seen ls := by
  induction reading with
  | first ran => exact next_reads (fun _ => rfl) nofun nofun rfl rfl nofun ran
  | next _ ran reads =>
    refine next_reads reads.none reads.lookahead (fun peeked => ?_) ?_ reads.eosLine (fun _ => ?_) ran
    · simpa [peeked] using reads.linenumber
    · exact reads.rest
    · exact reads.linenumber
  | lookahead _ name ran reads =>
    simp only [Compiler.lookahead, bind_returned, modify_returned] at ran
    obtain ⟨t, ls₁, lexed, rfl⟩ := ran
    obtain ⟨same, token⟩ := glex_returned lexed
    have left : _ = s.tokens.drop (_ + 1) := reads.rest
    simp only [left, reads.eosLine, head_drop, head_drop_line, List.tail_drop] at same token
    constructor
    case t => exact same.t.trans reads.t
    case none => exact nofun
    case lookahead => exact fun _ => token
    case ofName => exact fun _ => (congrArg Token.token same.t).trans name
    case linenumber => exact same.linenumber
    case lastline => exact fun positive => same.lastline.trans (reads.lastline positive)
    case rest => exact same.rest
    case eosLine => exact same.eosLine
  | other _ same reads => exact reads.congr same

/-! ## Tokens that are left -/

/-- Less than `n` tokens have not been returned yet. -/
def Left (n : Nat) (ls : LexState N) : Prop := ls.rest.length < n

theorem gen_left {α : Type} (m : CodeM N α) (n : Nat) : Ensures (Left n) (gen m) (fun _ => Left n) (Left n) := by
  intro ls left
  obtain ⟨a, fs, same⟩ | ⟨e, fs, failed⟩ := gen_state m ls
  · rw [same]
    exact left
  · rw [failed]
    exact left

theorem token_left (n : Nat) : Ensures (Left (N := N) n) token (fun _ => Left n) (Left n) :=
  Ensures.bind (.get fun _ left => left) fun _ _ left => left

omit [GafqNumber N] in
theorem syntaxerror_left {α : Type} (msg : TString) (n : Nat) :
    Ensures (Left n) (syntaxerror msg : CompileM N α) (fun _ => Left n) (Left n) :=
  Ensures.bind (.get fun _ left => left) fun _ => .throw

theorem glex_left (n : Nat) :
    Ensures (fun ls : LexState N => ls.rest.tail.length < n) (glex env) (fun _ => Left n) (Left n) := by
  have got : Ensures (fun ls => ls.rest.tail.length < n) (get : CompileM N (LexState N))
      (fun ls _ => ls.rest.tail.length < n) (Left n) := .get fun _ left => left
  refine got.bind fun ls => ?_
  have stored (line : Nat) {rest : List (Token N × Nat)} (tail : rest = ls.rest.tail) :
      Ensures (fun _ => ls.rest.tail.length < n) (set { ls with linenumber := line, rest } : CompileM N Unit)
        (fun _ => Left n) (Left n) :=
    .set fun _ left => by simpa [Left, tail] using left
  split
  · next read =>
    have ended := @stored ls.eosLine ls.rest (by simp [read])
    exact ended.bind fun _ _ left => left
  · next t line rest read =>
    have taken := @stored line rest (by simp [read])
    refine taken.bind fun _ => ?_
    split
    · next name text => exact (gen_left _ n).bind fun _ _ left => left
    · exact fun _ left => left

/-- No token comes back. -/
theorem next_left (n : Nat) : Ensures (Left n) (next env) (fun _ => Left n) (Left n) := by
  have got : Ensures (Left n) (get : CompileM N (LexState N)) (fun ls ls' => Left n ls ∧ Left n ls') (Left n) :=
    .get fun _ left => ⟨left, left⟩
  have lexed : Ensures (Left n) (glex env) (fun _ => Left n) (Left n) := by
    refine (glex_left n).weaken (fun ls left => ?_) fun _ _ left => left
    simp only [Left, List.length_tail] at left ⊢
    omega
  have noted : Ensures (Left n) (modify fun ls => { ls with lastline := ls.linenumber } : CompileM N Unit)
      (fun _ => Left n) (Left n) := .modify fun _ left => left
  refine noted.bind fun _ => got.bind fun ls => .ite (fun _ => .set fun _ holds => holds.1) fun _ => ?_
  exact (lexed.weaken (fun _ holds => holds.2) fun _ _ left => left).bind fun t => .modify fun _ left => left

theorem checkMatch_left (what who line n : Nat) :
    Ensures (Left n) (checkMatch env what who line) (fun _ => Left n) (Left n) := by
  have tested : Ensures (Left n) (testnext env what) (fun _ => Left n) (Left n) := by
    refine (token_left n).bind fun t => .ite (fun _ => ?_) fun _ _ left => left
    exact (next_left n).bind fun _ _ left => left
  refine tested.bind fun found => .ite (fun _ => ?_) fun _ _ left => left
  refine Ensures.bind (.get fun _ left => left) fun ls => ?_
  exact .ite (fun _ => syntaxerror_left _ n) fun _ => syntaxerror_left _ n

/-! ## Ambiguous calls -/

/-- `funcargs` refuses the current token as ambiguous, whatever follows it. -/
def RaisesAmbiguous (env : Env N) (ls : LexState N) : Prop :=
  ∀ fuel rules f, funcargs env fuel rules f ls =
    .error (.lexerror ls.linenumber (bytes "ambiguous syntax (function call x new statement)") ls.t.token) ls

/-- Rules for which no expression follows. -/
def noRules : Rules N := ⟨fun _ => throw .outOfFuel, throw .outOfFuel⟩

/-- The arguments after an opening parenthesis. -/
def parenthesized (env : Env N) (line : Nat) : CompileM N (ExpDesc N) := do
  let args ←
    if (← token) = tok ')' then pure (initExp .vvoid 0)
    else
      let (args, _) ← explist1 env 0 noRules
      gen (setreturns args multRet)
      pure args
  checkMatch env (tok ')') (tok '(') line
  pure args

/-- Past the test of the lines. -/
theorem callArgs_parenthesized {ls : LexState N} (paren : ls.t.token = tok '(') (sameLine : ls.linenumber = ls.lastline) :
    callArgs env 0 noRules ls.linenumber ls = (next env >>= fun _ => parenthesized env ls.linenumber) ls := by
  show (if ls.t.token = tok '(' then _ else _ : CompileM N (ExpDesc N)) ls = _
  rw [if_pos paren]
  show (if ls.linenumber ≠ ls.lastline then _ else _ : CompileM N (ExpDesc N)) ls = _
  rw [if_neg (by simp [sameLine])]
  rfl

theorem parenthesized_left (line n : Nat) :
    Ensures (Left n) (parenthesized env line) (fun _ => Left n) (Left n) := by
  have noArguments : Ensures (Left n) (explist1 env 0 (noRules (N := N))) (fun _ => Left n) (Left n) := fun _ left => left
  refine (token_left n).bind fun t => .ite (fun _ => ?_) fun _ => ?_
  · exact (checkMatch_left _ _ line n).bind fun _ _ left => left
  · refine noArguments.bind fun args => (gen_left _ n).bind fun _ => ?_
    exact (checkMatch_left _ _ line n).bind fun _ _ left => left

/-- What `funcargs` does with a parenthesis on the line of the last token ends in another state. -/
theorem funcargs_left {ls : LexState N} {n : Nat} (paren : ls.t.token = tok '(') (sameLine : ls.linenumber = ls.lastline)
    (f : ExpDesc N) (taken : Ensures (· = ls) (next env) (fun _ => Left n) (Left n)) :
    Ensures (· = ls) (funcargs env 0 noRules f) (fun _ => Left n) (Left n) := by
  have rest : Ensures (· = ls) ((next env >>= fun _ => parenthesized env ls.linenumber) >>= fun args =>
      gen (codeCall env f args ls.linenumber)) (fun _ => Left n) (Left n) :=
    (taken.bind fun _ => parenthesized_left ls.linenumber n).bind fun args => gen_left _ n
  intro ls' same
  have holds := rest ls' same
  rw [same] at holds ⊢
  rwa [← bind_congr_at (@callArgs_parenthesized _ _ env _ paren sameLine)] at holds

/-- `gafqX_next` reads a token when none has been looked at. -/
theorem next_of_none {ls : LexState N} (none : ls.lookahead.token = tkEos) :
    next env ls = (glex env >>= fun t => modify fun ls => { ls with t }) { ls with lastline := ls.linenumber } := by
  show (if ls.lookahead.token ≠ tkEos then _ else _ : CompileM N Unit) { ls with lastline := ls.linenumber } = _
  rw [if_neg (by simp [none])]

theorem next_takes {ls : LexState N} (none : ls.lookahead.token = tkEos) :
    Ensures (· = ls) (next env) (fun _ => Left (ls.rest.tail.length + 1)) (Left (ls.rest.tail.length + 1)) := by
  intro ls' same
  have lexed : Ensures (fun ls' => ls'.rest.tail.length < ls.rest.tail.length + 1)
      (glex env >>= fun t => modify fun ls => { ls with t }) (fun _ => Left (ls.rest.tail.length + 1)) (Left (ls.rest.tail.length + 1)) :=
    (glex_left _).bind fun t => .modify fun _ left => left
  rw [same, next_of_none none]
  exact lexed _ (Nat.lt_succ_self _)

/-- At the end of the stream there are no arguments. -/
theorem funcargs_ended {ls : LexState N} (paren : ls.t.token = tok '(') (sameLine : ls.linenumber = ls.lastline)
    (none : ls.lookahead.token = tkEos) (ended : ls.rest = []) (f : ExpDesc N) :
    ∃ ls', funcargs env 0 noRules f ls = .error .outOfFuel ls' := by
  have taken : next env ls = .ok () { ls with lastline := ls.linenumber, linenumber := ls.eosLine, t := eosToken } := by
    have read : glex env { ls with lastline := ls.linenumber } =
        .ok eosToken { ls with lastline := ls.linenumber, linenumber := ls.eosLine } := by
      simp only [glex, bind, EStateM.bind, get, getThe, MonadStateOf.get, EStateM.get, ended]
      rfl
    rw [next_of_none none]
    show EStateM.bind _ _ _ = _
    simp only [EStateM.bind, read]
    rfl
  have ran : (next env >>= fun _ => parenthesized env ls.linenumber) ls =
      parenthesized env ls.linenumber { ls with lastline := ls.linenumber, linenumber := ls.eosLine, t := eosToken } := by
    show EStateM.bind _ _ _ = _
    simp only [EStateM.bind, taken]
  refine ⟨{ ls with lastline := ls.linenumber, linenumber := ls.eosLine, t := eosToken }, ?_⟩
  show EStateM.bind (callArgs env 0 noRules ls.linenumber) (fun args => gen (codeCall env f args ls.linenumber)) ls = _
  simp only [EStateM.bind, callArgs_parenthesized paren sameLine, ran]
  rfl

/-- The test of `funcargs` is the one of the lines. -/
theorem raisesAmbiguous_iff {ls : LexState N} (paren : ls.t.token = tok '(') (none : ls.lookahead.token = tkEos) :
    RaisesAmbiguous env ls ↔ ls.linenumber ≠ ls.lastline := by
  constructor
  · intro raises sameLine
    have raised := raises 0 noRules (initExp .vvoid 0)
    cases left : ls.rest with
    | nil =>
      obtain ⟨ls', stuck⟩ := @funcargs_ended _ _ env _ paren sameLine none left (initExp .vvoid 0)
      rw [stuck] at raised
      cases raised
    | cons head rest =>
      have fewer := funcargs_left paren sameLine (initExp .vvoid 0) (@next_takes _ _ env _ none) ls rfl
      rw [raised] at fewer
      simp [Left, left] at fewer
  · intro differ fuel rules f
    have refused : callArgs env fuel rules ls.linenumber ls =
        .error (.lexerror ls.linenumber (bytes "ambiguous syntax (function call x new statement)") ls.t.token) ls := by
      show (if ls.t.token = tok '(' then _ else _ : CompileM N (ExpDesc N)) ls = _
      rw [if_pos paren]
      show (if ls.linenumber ≠ ls.lastline then _ else _ : CompileM N (ExpDesc N)) ls = _
      rw [if_pos differ]
      rfl
    show EStateM.bind (callArgs env fuel rules ls.linenumber) (fun args => gen (codeCall env f args ls.linenumber)) ls = _
    simp only [EStateM.bind, refused]

/-! ## The line of the last token -/

/-- The lines of a stream do not go back. -/
theorem TokenStream.line_mono (s : TokenStream N) (i : Nat) : s.line i ≤ s.line (i + 1) := by
  have line (j : Nat) : s.line j = ((s.tokens.map Prod.snd ++ [s.eosLine])[j]?).getD s.eosLine := by
    rw [List.getElem?_append, List.length_map]
    split
    · simp [TokenStream.line]
    · next beyond =>
      have outside : s.tokens[j]? = none := by simpa using beyond
      cases j - s.tokens.length <;> simp [TokenStream.line, outside]
  rw [line, line]
  by_cases inside : i + 1 < (s.tokens.map Prod.snd ++ [s.eosLine]).length
  · rw [List.getElem?_eq_getElem (Nat.lt_of_succ_lt inside), List.getElem?_eq_getElem inside]
    exact List.pairwise_iff_getElem.mp s.ordered i (i + 1) _ _ (Nat.lt_succ_self i)
  · rw [List.getElem?_eq_none (Nat.le_of_not_lt inside)]
    cases found : (s.tokens.map Prod.snd ++ [s.eosLine])[i]? with
    | none => exact Nat.le_refl _
    | some last =>
      obtain ⟨within, rfl⟩ := List.getElem?_eq_some_iff.mp found
      have size : (s.tokens.map Prod.snd ++ [s.eosLine]).length = s.tokens.length + 1 := by simp
      have final : i = s.tokens.length := by omega
      simp [final]

/-- While the stream is read, `lastline` is the line of the last token that was consumed, and an opening
parenthesis is refused just when it is on a later line, if and only if the current token had not been looked at
before, or is on the line of the last one. -/
theorem lastline_iff {i : Nat} {ahead seen : Bool} {ls : LexState N} (reading : Reading env s (i + 1) ahead seen ls) :
    (ls.lastline = s.line i ∧ (ls.t.token = tok '(' → (RaisesAmbiguous env ls ↔ s.line i < s.line (i + 1)))) ↔
      (seen = true → s.line (i + 1) = s.line i) := by
  have reads := reading.reads
  have lastline := reads.lastline (Nat.succ_pos i)
  have ordered := s.line_mono i
  constructor
  · rintro ⟨right, -⟩ before
    rw [before, if_pos rfl] at lastline
    exact lastline.symm.trans right
  · intro sameLine
    have right : ls.lastline = s.line i := by
      cases seen with
      | false => simpa using lastline
      | true => exact lastline.trans (sameLine rfl)
    refine ⟨right, fun paren => ?_⟩
    -- a parser does not look ahead of a parenthesis
    have notAhead : ahead = false := by
      cases ahead with
      | false => rfl
      | true => exact absurd (paren.symm.trans (reads.ofName rfl)) (by decide)
    have linenumber : ls.linenumber = s.line (i + 1) := by simpa [notAhead] using reads.linenumber
    rw [raisesAmbiguous_iff paren (reads.none notAhead), right, linenumber]
    omega

/-! ## Calls in tables -/

/-- Integers as the numbers of the compiler. -/
def intEnv : Env Int where
  mp := intPosition
  arithmetic := ⟨(· + ·), (· - ·), (· * ·), (· / ·), (· % ·), fun a b => a ^ b.toNat, Neg.neg⟩
  intern s := s.foldl (fun a c => a * 256 + c.toNat) 1
  text _ := []
  image n := bytes (toString n)
  source := []

/-- The tokens of `)` and `(` on two lines. -/
def twoLines : TokenStream Int where
  tokens := [(⟨tok ')', .r 0⟩, 1), (⟨tok '(', .r 0⟩, 2)]
  eosLine := 2
  notEos := by decide
  ordered := by decide

theorem lastline_iff_twoLines : ∃ ls, Reading intEnv twoLines 1 false false ls ∧
    ((ls.lastline = 1 ∧ (ls.t.token = tok '(' → (RaisesAmbiguous intEnv ls ↔ 1 < 2))) ↔ (false = true → 2 = 1)) := by
  have reading : Reading intEnv twoLines 1 false false _ := .next (@Reading.first _ _ _ _ 0 0 _ rfl) rfl
  exact ⟨_, reading, lastline_iff reading⟩

/-- The tokens of `return f`, a line break and `(x)`. -/
def callOutside : TokenStream Int where
  tokens := [(⟨tkReturn, .r 0⟩, 1), (⟨tkName, .ts (bytes "f")⟩, 1), (⟨tok '(', .r 0⟩, 2), (⟨tkName, .ts (bytes "x")⟩, 2),
    (⟨tok ')', .r 0⟩, 2)]
  eosLine := 2
  notEos := by decide
  ordered := by decide

/-- The tokens of `return {f`, a line break and `(x)}`. -/
def callInside : TokenStream Int where
  tokens := [(⟨tkReturn, .r 0⟩, 1), (⟨tok '\x7b', .r 0⟩, 1), (⟨tkName, .ts (bytes "f")⟩, 1), (⟨tok '(', .r 0⟩, 2),
    (⟨tkName, .ts (bytes "x")⟩, 2), (⟨tok ')', .r 0⟩, 2), (⟨tok '\x7d', .r 0⟩, 2)]
  eosLine := 2
  notEos := by decide
  ordered := by decide

/-- The error with which a stream is refused. -/
def refusal (s : TokenStream Int) : Option CompileError :=
  match parser intEnv 8 (initial s.tokens s.eosLine 0 0) with
  | .ok .. => none
  | .error e _ => some e

/-- Of the same call on two lines, one is refused and the other one, inside a table, is compiled. -/
theorem ambiguous_call_in_table :
    refusal callOutside =
      some (.lexerror 2 (bytes "ambiguous syntax (function call x new statement)") (tok '(')) ∧
    callInside.line 2 < callInside.line 3 ∧ (callInside.tokenAt 3).token = tok '(' ∧ refusal callInside = none := by
  decide +kernel

end Gafq.Compiler
