import Gafq.Verified.Compiler.TokenLines

/-! # The tokens of an expression

The expressions of `gparser.c` are modelled twice: the compiler makes the calls of the code generator, and
the parser of expressions only records them.  Where the compiler gets through an expression the parser takes
the same tokens and stops before the same operator.
-/

namespace Gafq.Compiler

open Lexer Code Base
open Gafq.Parser (tok ParseState BinOpr getunopr getbinopr leftPriority rightPriority unaryPriority tkFalse tkFunction tkNil tkTrue)

variable {N : Type}

/-- Both parsers have the same tokens before them, and `levels` more levels of syntax are allowed. -/
structure Ahead (levels : Nat) (ls : LexState N) (p : ParseState N) : Prop where
  none : ls.lookahead.token = tkEos
  tokens : p.tokens = [] ∧ ls.t.token = tkEos ∧ ls.rest = [] ∧ ls.linenumber = ls.eosLine ∨
    p.tokens = (ls.t, ls.linenumber) :: ls.rest
  lastLine : p.lastLine = ls.eosLine
  levels : ls.nCcalls + levels = maxCCalls

theorem gen_nCcalls {α : Type} {m : CodeM N α} {ls ls' : LexState N} {x : α} (ran : gen m ls = .ok x ls') :
    ls'.nCcalls = ls.nCcalls := by
  obtain ⟨y, fs, same⟩ | ⟨e, fs, failed⟩ := gen_state m ls
  · rw [same] at ran
    cases ran
    rfl
  · rw [failed] at ran
    cases ran

namespace Ahead

variable {levels : Nat} {ls ls' : LexState N} {p : ParseState N}

theorem token (ahead : Ahead levels ls p) : p.token = ls.t.token := by
  obtain ⟨none, ended, -⟩ | tokens := ahead.tokens
  · simp [ParseState.token, none, ended]
  · simp [ParseState.token, tokens]

theorem linenumber (ahead : Ahead levels ls p) : p.linenumber = ls.linenumber := by
  obtain ⟨none, -, -, line⟩ | tokens := ahead.tokens
  · simp [ParseState.linenumber, none, ahead.lastLine, line]
  · simp [ParseState.linenumber, tokens]

theorem congr (ahead : Ahead levels ls p) (same : SameTokens ls ls') (nCcalls : ls'.nCcalls = ls.nCcalls) : Ahead levels ls' p where
  none := by rw [same.lookahead, ahead.none]
  tokens := by
    rw [same.t, same.rest, same.linenumber, same.eosLine]
    exact ahead.tokens
  lastLine := by rw [same.eosLine, ahead.lastLine]
  levels := by rw [nCcalls, ahead.levels]

/-- A call of the code generator. -/
theorem gen {α : Type} {m : CodeM N α} {x : α} (ahead : Ahead levels ls p) (ran : gen m ls = .ok x ls') : Ahead levels ls' p :=
  ahead.congr (gen_sameTokens ran) (gen_nCcalls ran)

/-- A call is recorded. -/
theorem call (ahead : Ahead levels ls p) (c : Parser.Call N) : Ahead levels ls (Parser.call c p) :=
  ⟨ahead.none, ahead.tokens, ahead.lastLine, ahead.levels⟩

end Ahead

variable [GafqNumber N] {env : Env N} {fuel : Nat} {levels : Nat} {ls ls' : LexState N} {p : ParseState N}

theorem glex_nCcalls {t : Token N} (ran : glex env ls = .ok t ls') : ls'.nCcalls = ls.nCcalls := by
  simp only [glex, bind_returned, get_returned] at ran
  obtain ⟨_, _, ⟨got, same⟩, ran⟩ := ran
  rw [got, same] at ran
  cases read : ls.rest with
  | nil =>
    simp only [read, bind_returned, set_returned, pure_returned] at ran
    obtain ⟨_, _, rfl, -, rfl⟩ := ran
    rfl
  | cons head rest =>
    simp only [read, bind_returned, set_returned] at ran
    obtain ⟨_, _, rfl, ran⟩ := ran
    cases text : tokenString head.1 with
    | none =>
      simp only [text, pure_returned] at ran
      rw [ran.2]
    | some name =>
      simp only [text, bind_returned, pure_returned] at ran
      obtain ⟨_, _, string, -, rfl⟩ := ran
      have kept := gen_nCcalls string
      exact kept

theorem Ahead.next (ahead : Ahead levels ls p) (ran : next env ls = .ok () ls') : Ahead levels ls' (Parser.next p) := by
  simp only [Compiler.next, bind_returned, modify_returned, get_returned] at ran
  obtain ⟨_, _, rfl, _, _, ⟨got, same⟩, ran⟩ := ran
  rw [got, same] at ran
  simp only [ahead.none, ne_eq, not_true_eq_false, if_false, bind_returned, modify_returned] at ran
  obtain ⟨t, ls₁, lexed, rfl⟩ := ran
  obtain ⟨same, token⟩ := glex_returned lexed
  have nCcalls := glex_nCcalls lexed
  have tokens : p.tokens.tail = ls.rest := by
    obtain ⟨none, -, rest, -⟩ | tokens := ahead.tokens
    · rw [none, rest]
      rfl
    · rw [tokens]
      rfl
  refine ⟨(congrArg Token.token same.lookahead).trans ahead.none, ?_, ahead.lastLine.trans same.eosLine.symm,
    (congrArg (· + levels) nCcalls).trans ahead.levels⟩
  have rest := same.rest
  have linenumber := same.linenumber
  have eosLine := same.eosLine
  show p.tokens.tail = [] ∧ t.token = tkEos ∧ ls₁.rest = [] ∧ ls₁.linenumber = ls₁.eosLine ∨
    p.tokens.tail = (t, ls₁.linenumber) :: ls₁.rest
  rw [tokens, rest, linenumber, eosLine, token]
  cases ls.rest with
  | nil => exact .inl ⟨rfl, rfl, rfl, rfl⟩
  | cons head others => exact .inr rfl

omit [GafqNumber N] in
/-- A level of syntax is entered. -/
theorem Ahead.enterlevel (ahead : Ahead levels ls p) (ran : enterlevel ls = .ok () ls') :
    ∃ rest, levels = rest + 1 ∧ Ahead rest ls' p := by
  simp only [Compiler.enterlevel, bind_returned, modify_returned, get_returned] at ran
  obtain ⟨_, _, rfl, _, _, ⟨got, same⟩, ran⟩ := ran
  rw [got, same] at ran
  have nCcalls := ahead.levels
  split at ran
  · exact absurd ran throw_returned.mp
  · next within =>
    rw [pure_returned] at ran
    rw [ran.2]
    simp only [not_lt, gt_iff_lt] at within
    refine ⟨levels - 1, by omega, ahead.none, ahead.tokens, ahead.lastLine, ?_⟩
    show ls.nCcalls + 1 + (levels - 1) = maxCCalls
    omega

omit [GafqNumber N] in
/-- And left again. -/
theorem Ahead.leavelevel (ahead : Ahead levels ls p) (within : levels < maxCCalls) (ran : leavelevel ls = .ok () ls') : Ahead (levels + 1) ls' p := by
  simp only [Compiler.leavelevel, modify_returned] at ran
  rw [ran]
  refine ⟨ahead.none, ahead.tokens, ahead.lastLine, ?_⟩
  have nCcalls := ahead.levels
  show ls.nCcalls - 1 + (levels + 1) = maxCCalls
  omega

/-- The function of the compiler has succeeded, and the one of the parser gets as far. -/
def Follows (levels : Nat) (ls' : LexState N) (parsed : Parser.ParseM (Parser.ExpDesc N × ParseState N)) : Prop :=
  ∃ v p, parsed = .ok (v, p) ∧ Ahead levels ls' p

omit [GafqNumber N] in
theorem token_returned {t : Nat} : token ls = .ok t ls' ↔ t = ls.t.token ∧ ls' = ls := by
  simp only [token, bind_returned, get_returned, pure_returned]
  constructor
  · rintro ⟨_, _, ⟨rfl, rfl⟩, rfl, rfl⟩
    exact ⟨rfl, rfl⟩
  · rintro ⟨rfl, rfl⟩
    exact ⟨_, _, ⟨rfl, rfl⟩, rfl, rfl⟩

omit [GafqNumber N] in
theorem syntaxerror_returned {α : Type} {msg : TString} {x : α} : ¬ syntaxerror msg ls = .ok x ls' := by
  simp [syntaxerror, bind_returned, throw_returned]

theorem checkMatch_follows {what who line : Nat} (ahead : Ahead levels ls p) (ran : checkMatch env what who line ls = .ok () ls') :
    ∃ p', Parser.checkMatch p what who line = .ok p' ∧ Ahead levels ls' p' := by
  simp only [checkMatch, testnext, bind_returned, token_returned] at ran
  obtain ⟨found, ls₁, ⟨t, _, ⟨rfl, rfl⟩, test⟩, rest⟩ := ran
  unfold Parser.checkMatch
  rw [ahead.token]
  split at test
  · next isWhat =>
    simp only [bind_returned, pure_returned] at test
    obtain ⟨_, _, moved, rfl, rfl⟩ := test
    simp only [not_true_eq_false, if_false, pure_returned] at rest
    obtain ⟨-, rfl⟩ := rest
    exact ⟨_, if_pos isWhat, ahead.next moved⟩
  · simp only [pure_returned] at test
    obtain ⟨rfl, rfl⟩ := test
    simp only [Bool.false_eq_true, not_false_eq_true, if_true, bind_returned, get_returned] at rest
    obtain ⟨_, _, -, failed⟩ := rest
    split at failed
    · exact absurd failed syntaxerror_returned
    · exact absurd failed syntaxerror_returned

/-! ## Simple expressions -/

theorem Ahead.codestring {s : TString} {v : ExpDesc N} (ahead : Ahead levels ls p) (ran : codestring env s ls = .ok v ls') :
    Ahead levels ls' p := by
  simp only [Compiler.codestring, bind_returned, pure_returned] at ran
  obtain ⟨k, _, made, -, rfl⟩ := ran
  exact ahead.gen made

theorem strCheckname_returned {s : TString} (ran : strCheckname env ls = .ok s ls') : next env ls = .ok () ls' := by
  simp only [strCheckname, check, bind_returned, token_returned, get_returned, pure_returned] at ran
  obtain ⟨_, ls₁, ⟨_, _, ⟨rfl, rfl⟩, checked⟩, _, _, ⟨rfl, rfl⟩, _, ls₂, moved, -, rfl⟩ := ran
  split at checked
  · exact absurd checked syntaxerror_returned
  · rw [pure_returned] at checked
    rwa [checked.2] at moved

theorem Ahead.singlevar {v : ExpDesc N} (ahead : Ahead levels ls p) (ran : singlevar env ls = .ok v ls') :
    Ahead levels ls' (Parser.next p) := by
  simp only [Compiler.singlevar, bind_returned, get_returned] at ran
  obtain ⟨name, ls₁, taken, _, _, ⟨got, same⟩, ran⟩ := ran
  rw [got, same] at ran
  have moved := ahead.next (strCheckname_returned taken)
  cases found : singlevaraux name true (ls₁.fs :: ls₁.prev) with
  | error e =>
    rw [found] at ran
    exact absurd ran throw_returned.mp
  | ok result =>
    obtain ⟨⟨k, info⟩, functions⟩ := result
    rw [found] at ran
    cases functions with
    | nil => exact absurd ran throw_returned.mp
    | cons fs prev =>
      simp only [bind_returned, set_returned] at ran
      obtain ⟨_, _, rfl, ran⟩ := ran
      have stored : Ahead levels { ls₁ with fs, prev } (Parser.next p) := moved.congr ⟨rfl, rfl, rfl, rfl, rfl, rfl⟩ rfl
      split at ran
      · simp only [bind_returned, pure_returned] at ran
        obtain ⟨_, _, made, -, rfl⟩ := ran
        exact stored.gen made
      · rw [pure_returned] at ran
        rwa [ran.2]

theorem Ahead.dots {v : ExpDesc N} (ahead : Ahead levels ls p) (ran : dots ls = .ok v ls') : Ahead levels ls' p := by
  simp only [Compiler.dots, bind_returned, get_returned] at ran
  obtain ⟨_, _, ⟨rfl, rfl⟩, ran⟩ := ran
  split at ran
  · simp only [bind_returned] at ran
    obtain ⟨_, _, refused, -⟩ := ran
    exact absurd refused syntaxerror_returned
  · simp only [bind_returned, pure_returned] at ran
    obtain ⟨_, _, marked, _, _, coded, -, rfl⟩ := ran
    exact (ahead.gen marked).gen coded

/-- An expression of a single token. -/
theorem Ahead.simple {rules : Rules N} {v : ExpDesc N} (ahead : Ahead levels ls p) (simple : ls.t.token ∈ Parser.simpleTokens)
    (ran : simpleexp env fuel rules ls = .ok v ls') : Ahead levels ls' (Parser.next p) := by
  simp only [simpleexp, bind_returned, token_returned] at ran
  obtain ⟨t, ls₁, ⟨is, same⟩, ran⟩ := ran
  rw [is, same] at ran
  by_cases number : ls.t.token = tkNumber
  · simp only [if_pos number, bind_returned, get_returned, pure_returned] at ran
    obtain ⟨_, _, ⟨-, same⟩, _, _, moved, -, rfl⟩ := ran
    rw [same] at moved
    exact ahead.next moved
  rw [if_neg number] at ran
  by_cases string : ls.t.token = tkString
  · simp only [if_pos string, bind_returned, get_returned, pure_returned] at ran
    obtain ⟨_, _, ⟨-, same⟩, _, _, coded, _, _, moved, -, rfl⟩ := ran
    rw [same] at coded
    exact (ahead.codestring coded).next moved
  rw [if_neg string] at ran
  -- `nil`, `true` and `false`
  have constant (k : ExpKind) (taken : (Compiler.next env >>= fun _ => pure (initExp k 0)) ls = .ok v ls') : Ahead levels ls' (Parser.next p) := by
    simp only [bind_returned, pure_returned] at taken
    obtain ⟨_, _, moved, -, rfl⟩ := taken
    exact ahead.next moved
  by_cases nil : ls.t.token = tkNil
  · rw [if_pos nil] at ran
    exact constant .vnil ran
  rw [if_neg nil] at ran
  by_cases isTrue : ls.t.token = tkTrue
  · rw [if_pos isTrue] at ran
    exact constant .vtrue ran
  rw [if_neg isTrue] at ran
  by_cases isFalse : ls.t.token = tkFalse
  · rw [if_pos isFalse] at ran
    exact constant .vfalse ran
  · exact absurd simple (by simp [Parser.simpleTokens, number, string, nil, isTrue, isFalse])

/-- One turn of the loop of `primaryexp`. -/
def suffix (env : Env N) (fuel : Nat) (rules : Rules N) (v : ExpDesc N) : CompileM N (ExpDesc N) := do
  let t ← token
  if t = tok '.' then field env v
  else if t = tok '[' then
    let v ← gen (exp2anyreg env v)
    let key ← yindex env rules
    gen (indexed env v key)
  else if t = tok ':' then
    next env
    let key ← checkname env
    let v ← gen (self env v key)
    funcargs env fuel rules v
  else
    let v ← gen (exp2nextreg env v)
    funcargs env fuel rules v

theorem primaryLoop_turn {rules : Rules N} {left : Nat} {v : ExpDesc N} (more : ls.t.token ∈ Parser.suffixTokens) :
    primaryLoop env fuel rules (left + 1) v ls = (suffix env fuel rules v >>= primaryLoop env fuel rules left) ls := by
  show (if ls.t.token = tok '.' then _ else _ : CompileM N (ExpDesc N)) ls =
    ((if ls.t.token = tok '.' then _ else _ : CompileM N (ExpDesc N)) >>= _) ls
  by_cases dot : ls.t.token = tok '.'
  · rw [if_pos dot, if_pos dot]
  · rw [if_neg dot, if_neg dot]
    by_cases bracket : ls.t.token = tok '['
    · simp only [if_pos bracket, bind_assoc]
    · rw [if_neg bracket, if_neg bracket]
      by_cases colon : ls.t.token = tok ':'
      · simp only [if_pos colon, bind_assoc]
      · rw [if_neg colon, if_neg colon]
        have arguments : ls.t.token = tok '(' ∨ ls.t.token = tkString ∨ ls.t.token = tok '\x7b' := by
          simpa [Parser.suffixTokens, dot, bracket, colon] using more
        simp only [if_pos arguments, bind_assoc]

theorem primaryLoop_ended {rules : Rules N} {left : Nat} {v : ExpDesc N} (none : ls.t.token ∉ Parser.suffixTokens) :
    primaryLoop env fuel rules (left + 1) v ls = .ok v ls := by
  simp only [Parser.suffixTokens, List.mem_cons, List.not_mem_nil, or_false, not_or] at none
  obtain ⟨dot, bracket, colon, paren, string, brace⟩ := none
  show (if ls.t.token = tok '.' then _ else _ : CompileM N (ExpDesc N)) ls = _
  rw [if_neg dot, if_neg bracket, if_neg colon, if_neg (by simp [paren, string, brace])]
  rfl

/-- The rules that the parser of expressions gets from elsewhere take the same tokens. -/
structure Agrees (env : Env N) (fuel : Nat) (rules : Rules N) (parser : Parser.Rules N) : Prop where
  isVararg : parser.isVararg = true
  constructor : ∀ {levels : Nat} {ls ls' : LexState N} {p : ParseState N} {v : ExpDesc N}, Ahead levels ls p →
    constructor env fuel rules ls = .ok v ls' → Follows levels ls' (parser.constructor p)
  body : ∀ {levels : Nat} {ls ls' : LexState N} {p : ParseState N} {v : ExpDesc N} {line : Nat}, Ahead levels ls p →
    body env fuel rules false line ls = .ok v ls' → Follows levels ls' (parser.body p)
  suffix : ∀ {levels : Nat} {ls ls' : LexState N} {p : ParseState N} {v v' : ExpDesc N} {w : Parser.ExpDesc N}, Ahead levels ls p →
    ls.t.token ∈ Parser.suffixTokens → suffix env fuel rules v ls = .ok v' ls' → Follows levels ls' (parser.suffix w p)

/-- The operands of operators take the same tokens. -/
def OperandsFollow (fuel : Nat) (rules : Rules N) (parser : Parser.Rules N) : Prop :=
  ∀ {levels limit : Nat} {ls ls' : LexState N} {p : ParseState N} {v : ExpDesc N} {op : Option BinOpr}, Ahead levels ls p →
    rules.subexpr limit ls = .ok (v, op) ls' →
    ∃ w q, Parser.subexpr parser fuel levels limit p = .ok (op, w, q) ∧ Ahead levels ls' q

/-- An expression in parentheses. -/
def nested (parser : Parser.Rules N) (fuel levels : Nat) (p : ParseState N) : Parser.ParseM (Parser.ExpDesc N × ParseState N) := do
  let (_, v, p) ← Parser.subexpr parser fuel levels 0 p
  pure (v, p)

section

variable {rules : Rules N} {parser : Parser.Rules N} (agrees : Agrees env fuel rules parser)
  (operands : OperandsFollow fuel rules parser)

include operands

omit [GafqNumber N] in
theorem expr_follows {v : ExpDesc N} (ahead : Ahead levels ls p) (ran : expr rules ls = .ok v ls') :
    Follows levels ls' (nested parser fuel levels p) := by
  simp only [expr, map_returned] at ran
  obtain ⟨⟨v, op⟩, ran, rfl⟩ := ran
  obtain ⟨w, q, parsed, moved⟩ := operands ahead ran
  refine ⟨w, q, ?_, moved⟩
  simp only [nested, parsed]
  rfl

theorem prefixexp_follows {v : ExpDesc N} (ahead : Ahead levels ls p) (ran : prefixexp env rules ls = .ok v ls') :
    Follows levels ls' (Parser.prefixexp (nested parser fuel levels) p) := by
  simp only [prefixexp, bind_returned, token_returned] at ran
  obtain ⟨t, ls₁, ⟨is, same⟩, ran⟩ := ran
  rw [is, same] at ran
  unfold Parser.prefixexp
  rw [ahead.token, ahead.linenumber]
  by_cases paren : ls.t.token = tok '('
  · rw [if_pos paren] at ran ⊢
    simp only [bind_returned, get_returned] at ran
    obtain ⟨_, _, ⟨got, same⟩, _, _, moved, v, _, inside, _, _, closed, discharged⟩ := ran
    rw [same] at moved
    rw [got] at closed
    obtain ⟨w, q, parsed, after⟩ := expr_follows operands (ahead.next moved) inside
    obtain ⟨q', matched, done⟩ := checkMatch_follows after closed
    refine ⟨.discharged w, Parser.call (.gafqKDischargevars w) q', ?_, (done.gen discharged).call _⟩
    rw [parsed]
    simp only [bind, Except.bind, matched]
    rfl
  · rw [if_neg paren] at ran ⊢
    by_cases name : ls.t.token = tkName
    · rw [if_pos name] at ran ⊢
      exact ⟨_, _, rfl, ahead.singlevar ran⟩
    · rw [if_neg name] at ran
      exact absurd ran syntaxerror_returned

omit operands in
include agrees in
theorem primaryLoop_follows {left : Nat} {v v' : ExpDesc N} {w : Parser.ExpDesc N} (ahead : Ahead levels ls p)
    (ran : primaryLoop env fuel rules left v ls = .ok v' ls') : Follows levels ls' (Parser.primaryLoop parser left w p) := by
  induction left generalizing ls p v w with
  | zero => exact absurd ran throw_returned.mp
  | succ left ih =>
    unfold Parser.primaryLoop
    rw [ahead.token]
    by_cases more : ls.t.token ∈ Parser.suffixTokens
    · rw [primaryLoop_turn more, bind_returned] at ran
      obtain ⟨v, ls₁, turn, rest⟩ := ran
      obtain ⟨w, q, parsed, after⟩ := agrees.suffix (w := w) ahead more turn
      obtain ⟨w', q', looped, done⟩ := ih (w := w) after rest
      refine ⟨w', q', ?_, done⟩
      rw [if_pos more, parsed]
      exact looped
    · rw [primaryLoop_ended more] at ran
      cases ran
      exact ⟨w, p, if_neg more, ahead⟩

include agrees

theorem simpleexp_follows {v : ExpDesc N} (ahead : Ahead levels ls p) (ran : simpleexp env fuel rules ls = .ok v ls') :
    Follows levels ls' (Parser.simpleexp parser fuel (nested parser fuel levels) p) := by
  unfold Parser.simpleexp
  rw [ahead.token]
  by_cases simple : ls.t.token ∈ Parser.simpleTokens
  · exact ⟨_, _, if_pos simple, ahead.simple simple ran⟩
  rw [if_neg simple]
  simp only [Parser.simpleTokens, List.mem_cons, List.not_mem_nil, or_false, not_or] at simple
  obtain ⟨number, string, nil, isTrue, isFalse⟩ := simple
  simp only [simpleexp, bind_returned, token_returned] at ran
  obtain ⟨t, ls₁, ⟨is, same⟩, ran⟩ := ran
  rw [is, same, if_neg number, if_neg string, if_neg nil, if_neg isTrue, if_neg isFalse] at ran
  by_cases vararg : ls.t.token = tkDots
  · simp only [if_pos vararg, bind_returned, pure_returned] at ran
    obtain ⟨_, _, opened, _, _, moved, -, rfl⟩ := ran
    refine ⟨p.simple, Parser.next p, ?_, (ahead.dots opened).next moved⟩
    rw [if_pos vararg, if_pos agrees.isVararg]
    rfl
  rw [if_neg vararg] at ran ⊢
  by_cases brace : ls.t.token = tok '\x7b'
  · rw [if_pos brace] at ran ⊢
    exact agrees.constructor ahead ran
  rw [if_neg brace] at ran ⊢
  by_cases function : ls.t.token = tkFunction
  · simp only [if_pos function, bind_returned, get_returned] at ran ⊢
    obtain ⟨_, _, moved, _, _, ⟨-, same⟩, closed⟩ := ran
    rw [same] at closed
    exact agrees.body (ahead.next moved) closed
  · rw [if_neg function, primaryexp, bind_returned] at ran
    obtain ⟨v, ls₁, prefixed, looped⟩ := ran
    obtain ⟨w, q, parsed, after⟩ := prefixexp_follows operands ahead prefixed
    rw [if_neg function]
    unfold Parser.primaryexp
    rw [parsed]
    exact primaryLoop_follows agrees after looped

/-! ## Operators -/

theorem firstOperand_follows {v : ExpDesc N} (ahead : Ahead levels ls p) (ran : firstOperand env fuel rules ls = .ok v ls') :
    Follows levels ls' (Parser.firstOperand parser fuel (Parser.subexpr parser fuel levels) p) := by
  simp only [firstOperand, bind_returned, token_returned] at ran
  obtain ⟨t, ls₁, ⟨is, same⟩, ran⟩ := ran
  rw [is, same] at ran
  unfold Parser.firstOperand
  rw [ahead.token]
  cases unary : getunopr ls.t.token with
  | none =>
    rw [unary] at ran
    exact simpleexp_follows agrees operands ahead ran
  | some uop =>
    simp only [unary, bind_returned] at ran
    obtain ⟨_, _, moved, ⟨v, op⟩, _, operand, prefixed⟩ := ran
    obtain ⟨w, q, parsed, after⟩ := operands (ahead.next moved) operand
    refine ⟨.prefixed uop w, Parser.call (.gafqKPrefix uop w) q, ?_, (after.gen prefixed).call _⟩
    simp only [parsed]
    rfl

omit agrees in
theorem exprLoop_follows {limit left : Nat} {op op' : Option BinOpr} {v v' : ExpDesc N} {w : Parser.ExpDesc N}
    (ahead : Ahead levels ls p) (ran : exprLoop env rules limit left op v ls = .ok (v', op') ls') :
    ∃ w' q, Parser.exprLoop (Parser.subexpr parser fuel levels) limit left op w p = .ok (op', w', q) ∧ Ahead levels ls' q := by
  induction left generalizing ls p op v w with
  | zero => exact absurd ran throw_returned.mp
  | succ left ih =>
    cases op with
    | none =>
      cases ran
      exact ⟨w, p, rfl, ahead⟩
    | some op =>
      unfold exprLoop at ran
      unfold Parser.exprLoop
      by_cases higher : leftPriority op > limit
      · simp only [if_pos higher, bind_returned] at ran
        obtain ⟨_, _, moved, v₁, _, infixed, ⟨v₂, nextop⟩, _, operand, v₃, _, posfixed, rest⟩ := ran
        have before := ((ahead.next moved).gen infixed).call (.gafqKInfix op w)
        obtain ⟨w₂, q, parsed, after⟩ := operands before operand
        have made := (after.gen posfixed).call (.gafqKPosfix op (.infixed op w) w₂)
        obtain ⟨w', q', looped, done⟩ := ih (w := .posfixed op (.infixed op w) w₂) made rest
        refine ⟨w', q', ?_, done⟩
        simp only [if_pos higher, parsed]
        exact looped
      · rw [if_neg higher] at ran
        cases ran
        exact ⟨w, p, if_neg higher, ahead⟩

end

/-- Where the compiler gets through an expression, the parser of expressions takes the same tokens and returns
the same untreated operator. -/
theorem subexpr_follows {parser : Parser.Rules N} (agrees : ∀ n, Agrees env fuel (rulesAt env fuel n) parser) (n : Nat) :
    OperandsFollow fuel (rulesAt env fuel n) parser := by
  induction n with
  | zero =>
    intro _ _ _ _ _ _ _ _ ran
    exact absurd ran throw_returned.mp
  | succ n ih =>
    intro levels limit ls ls' p v op ahead ran
    simp only [rulesAt, subexpr, bind_returned, token_returned, pure_returned] at ran
    obtain ⟨_, ls₁, entered, v₁, ls₂, first, t, ls₃, ⟨is, same⟩, r, ls₄, looped, _, ls₅, left, rfl, rfl⟩ := ran
    rw [is, same] at looped
    obtain ⟨rest, rfl, inside⟩ := ahead.enterlevel entered
    obtain ⟨w, q, parsed, after⟩ := firstOperand_follows (agrees n) ih inside first
    obtain ⟨w', q', expanded, done⟩ := exprLoop_follows (w := w) ih after looped
    have within : rest < maxCCalls := by
      have nCcalls := ahead.levels
      omega
    refine ⟨w', q', ?_, done.leavelevel within left⟩
    unfold Parser.subexpr
    rw [parsed]
    show Parser.exprLoop _ limit fuel (getbinopr q.token) w q = _
    rw [after.token]
    exact expanded

end Gafq.Compiler
