import Gafq.Parser.Printing
import Gafq.Base.Outcome

/-! # Printed expressions are parsed back

`subexpr` returns the first operator that it has not treated, and every caller above it compares this
operator with its own limit.  So what `subexpr` has to do for a printed operand is to reach its loop with
the descriptor of the operand and with what comes after it; whether the loop then goes on depends on
these two only.
-/

namespace Gafq.Parser

open Lexer Base

variable {N : Type} {rules : Rules N} {fuel : Nat} {p : ParseState N} {text text' : List (Printed N)}
  {tokens rest : List (Token N × Nat)}

/-! ## Tokens -/

@[simp] theorem getbinopr_binaryToken (op : BinOpr) : getbinopr (binaryToken op) = some op := by cases op <;> rfl

@[simp] theorem getunopr_unaryToken (op : UnOpr) : getunopr (unaryToken op) = some op := by cases op <;> rfl

theorem binaryToken_suffix (op : BinOpr) : binaryToken op ∉ suffixTokens := by cases op <;> decide

/-- An operand does not begin with a unary operator. -/
theorem atom_getunopr {token : Nat} (isAtom : token ∈ atomTokens) : getunopr token = none := by
  revert token
  decide

theorem Written.append : ∀ {text : List (Printed N)} {tokens : List (Token N × Nat)}, Written (text ++ text') tokens →
    ∃ first second, tokens = first ++ second ∧ Written text first ∧ Written text' second
  | [], tokens, written => ⟨[], tokens, rfl, .nil, written⟩
  | _ :: _, _ :: _, .cons reads written => by
    obtain ⟨first, second, rfl, isFirst, isSecond⟩ := Written.append written
    exact ⟨_ :: first, second, rfl, .cons reads isFirst, isSecond⟩

theorem Written.mark {token : Nat} (written : Written (.mark token :: text) tokens) :
    ∃ t line others, tokens = (t, line) :: others ∧ t.token = token ∧ Written text others := by
  cases written with
  | @cons _ t _ others reads written => exact ⟨t.1, t.2, others, rfl, reads, written⟩

/-! ## Priorities -/

/-- Within the tree, no operator would take the operator after it for its own. -/
def Stops (o : BinOpr) : Expr N → Prop
  | .atom _ => True
  | .unary _ x => leftPriority o ≤ unaryPriority ∧ (unaryParen x = false → Stops o x)
  | .binary op _ r => leftPriority o ≤ rightPriority op ∧ (rightParen op r = false → Stops o r)

theorem below_unary {o op : BinOpr} (below : leftPriority o ≤ rightPriority op) : leftPriority o ≤ unaryPriority := by
  revert below
  cases o <;> cases op <;> decide

/-- An operator in the right operand without parentheses binds at least as much. -/
theorem right_le {op op' : BinOpr} (above : rightPriority op < leftPriority op') : rightPriority op ≤ rightPriority op' := by
  revert above
  cases op <;> cases op' <;> decide

theorem below_pow {o op : BinOpr} (above : unaryPriority < leftPriority op) (below : leftPriority o ≤ unaryPriority) :
    leftPriority o ≤ rightPriority op := by
  revert above below
  cases o <;> cases op <;> decide

theorem right_le_left (op : BinOpr) : rightPriority op ≤ leftPriority op := by cases op <;> decide

/-- What goes with the operator of a tree goes with the operators at its right end. -/
theorem Expr.stops {o : BinOpr} (e : Expr N) (binary : ∀ op l r, e = .binary op l r → leftPriority o ≤ rightPriority op)
    (unary : ∀ op x, e = .unary op x → leftPriority o ≤ unaryPriority) : Stops o e := by
  induction e with
  | atom a => trivial
  | unary op x inductionHypothesis =>
    have below := unary op x rfl
    refine ⟨below, fun noParen => inductionHypothesis ?_ fun _ _ _ => below⟩
    rintro op' l r rfl
    exact below_pow (by simpa [unaryParen] using noParen) below
  | binary op l r _ inductionHypothesis =>
    have below := binary op l r rfl
    refine ⟨below, fun noParen => inductionHypothesis ?_ fun _ _ _ => below_unary below⟩
    rintro op' l' r' rfl
    exact Nat.le_trans below (right_le (by simpa [rightParen] using noParen))

/-- A left operand without parentheses ends before the operator. -/
theorem stops_left {op : BinOpr} {l : Expr N} (noParen : leftParen op l = false) : Stops op l := by
  apply l.stops
  · rintro op' l' r' rfl
    simpa [leftParen] using noParen
  · rintro op' x rfl
    simpa [leftParen] using noParen

/-- The operators of the tree bind more than the limit. -/
def Fits (limit : Nat) (e : Expr N) : Prop := ∀ op l r, e = .binary op l r → limit < leftPriority op

/-! ## Operands -/

/-- The iterations of the loop that parse the tree, if it is not in parentheses. -/
def operandSpine (paren : Bool) (n : Nat) : Nat := if paren then 0 else n

def Expr.spine : Expr N → Nat
  | .binary op l _ => operandSpine (leftParen op l) l.spine + 1
  | _ => 0

/-- The binary operators of the tree. -/
def Expr.operators : Expr N → Nat
  | .atom _ => 0
  | .unary _ x => x.operators
  | .binary _ l r => l.operators + r.operators + 1

theorem operandSpine_le (paren : Bool) (n : Nat) : operandSpine paren n ≤ n := by
  cases paren <;> simp [operandSpine]

theorem Expr.spine_le (e : Expr N) : e.spine ≤ e.operators := by
  induction e with
  | atom a => exact Nat.le_refl 0
  | unary op x => exact Nat.zero_le _
  | binary op l r left _ =>
    have operand := operandSpine_le (leftParen op l) l.spine
    simp only [spine, operators]
    omega

/-- The token after an operand. -/
def headToken (rest : List (Token N × Nat)) : Nat := (⟨rest, 0, []⟩ : ParseState N).token

/-- What comes after an operand does not go on with it. -/
def Follows (rest : List (Token N × Nat)) (stops : BinOpr → Prop) : Prop :=
  headToken rest ∉ suffixTokens ∧ ∀ o, getbinopr (headToken rest) = some o → stops o

/-- `subexpr` reaches its loop with the tree. -/
def Parses (rules : Rules N) (fuel : Nat) (e : Expr N) : Prop :=
  ∀ ⦃levels limit line : Nat⦄ ⦃tokens rest : List (Token N × Nat)⦄ ⦃calls : List (Call N)⦄, Written e.print tokens →
    Fits limit e → e.nesting ≤ levels → Follows rest (Stops · e) →
    subexpr rules fuel (levels + 1) limit ⟨tokens ++ rest, line, calls⟩ =
      exprLoop (subexpr rules fuel levels) limit (fuel - e.spine) (getbinopr (headToken rest)) e.value ⟨rest, line, calls ++ e.calls⟩

/-- The loop ends at an operator that is not above the limit. -/
theorem exprLoop_end {sub : Nat → ParseState N → ParseM (Option BinOpr × ExpDesc N × ParseState N)} {limit left : Nat}
    {op : Option BinOpr} {v : ExpDesc N} (notAbove : ∀ o, op = some o → leftPriority o ≤ limit) (more : 0 < left) :
    exprLoop sub limit left op v p = .ok (op, v, p) := by
  obtain ⟨left, rfl⟩ : ∃ k, left = k + 1 := ⟨left - 1, by omega⟩
  cases op with
  | none => rfl
  | some o => exact if_neg (Nat.not_lt.2 (notAbove o rfl))

theorem primaryLoop_end {v : ExpDesc N} (noSuffix : p.token ∉ suffixTokens) (more : 0 < fuel) :
    primaryLoop rules fuel v p = .ok (v, p) := by
  obtain ⟨fuel, rfl⟩ : ∃ k, fuel = k + 1 := ⟨fuel - 1, by omega⟩
  exact if_neg noSuffix

/-- A prefix expression is what the operand begins with. -/
theorem firstOperand_primary {sub : Nat → ParseState N → ParseM (Option BinOpr × ExpDesc N × ParseState N)}
    (isPrimary : p.token = tok '(' ∨ p.token = tkName) :
    firstOperand rules fuel sub p = primaryexp rules fuel (fun p => do
      let (_, v, p) ← sub 0 p
      pure (v, p)) p := by
  rcases isPrimary with isOpen | isName
  · simp only [firstOperand, simpleexp, isOpen]
    rfl
  · simp only [firstOperand, simpleexp, isName]
    rfl

/-- An operand in parentheses, after which nothing goes on with it. -/
theorem Parses.inParentheses {x : Expr N} (parses : Parses rules fuel x) (enough : x.operators < fuel)
    {levels line : Nat} {calls : List (Call N)} (written : Written (parenthesize true x.print) tokens)
    (nests : x.nesting ≤ levels) (noSuffix : headToken rest ∉ suffixTokens) :
    firstOperand rules fuel (subexpr rules fuel (levels + 1)) ⟨tokens ++ rest, line, calls⟩ =
      .ok (.discharged x.value, ⟨rest, line, calls ++ operandCalls true x.value x.calls⟩) := by
  obtain ⟨tOpen, lineOpen, others, rfl, isOpen, written⟩ := written.mark
  obtain ⟨inner, last, rfl, isInner, isLast⟩ := Written.append written
  obtain ⟨tClose, lineClose, others, rfl, isClose, isNil⟩ := isLast.mark
  cases isNil
  have isHead : headToken ((tClose, lineClose) :: rest) = tok ')' := isClose
  -- the parenthesis ends the inner expression
  have noOperator : getbinopr (headToken ((tClose, lineClose) :: rest)) = none := by rw [isHead]; rfl
  have inside := @parses levels 0 line inner ((tClose, lineClose) :: rest) calls isInner
    (fun op _ _ _ => by cases op <;> decide) nests
    ⟨by rw [isHead]; decide, fun o isNext => by simp [noOperator] at isNext⟩
  have iterations := x.spine_le
  rw [noOperator, exprLoop_end (by simp) (by omega)] at inside
  have isPrimary : (⟨(tOpen, lineOpen) :: (inner ++ (tClose, lineClose) :: rest), line, calls⟩ : ParseState N).token =
      tok '(' := isOpen
  have closes : checkMatch (⟨(tClose, lineClose) :: rest, line, calls ++ x.calls⟩ : ParseState N) (tok ')') (tok '(')
      lineOpen = .ok ⟨rest, line, calls ++ x.calls⟩ := if_pos isClose
  have isPrefix : prefixexp (fun p => do
      let (_, v, p) ← subexpr rules fuel (levels + 1) 0 p
      pure (v, p)) ⟨(tOpen, lineOpen) :: (inner ++ (tClose, lineClose) :: rest), line, calls⟩ =
      .ok (.discharged x.value, ⟨rest, line, calls ++ operandCalls true x.value x.calls⟩) := by
    refine (if_pos isPrimary).trans ?_
    simp only [next, List.tail_cons, inside]
    simp [bind, Except.bind, pure, Except.pure, ParseState.linenumber, closes, operandCalls, call]
  simp only [List.cons_append, List.append_assoc, List.nil_append]
  rw [firstOperand_primary (.inl isPrimary), primaryexp, isPrefix]
  exact primaryLoop_end noSuffix (by omega)

/-- An operand that may be in parentheses. -/
theorem Parses.operand {x : Expr N} (parses : Parses rules fuel x) (enough : x.operators < fuel) {paren : Bool}
    {levels limit line : Nat} {calls : List (Call N)} (written : Written (parenthesize paren x.print) tokens)
    (fits : paren = false → Fits limit x) (nests : operandNesting paren x.nesting ≤ levels)
    (follows : Follows rest fun o => paren = false → Stops o x) :
    subexpr rules fuel (levels + 1) limit ⟨tokens ++ rest, line, calls⟩ =
      exprLoop (subexpr rules fuel levels) limit (fuel - operandSpine paren x.spine) (getbinopr (headToken rest))
        (operandValue paren x.value) ⟨rest, line, calls ++ operandCalls paren x.value x.calls⟩ := by
  cases paren with
  | false => exact parses written (fits rfl) nests ⟨follows.1, fun o isNext => follows.2 o isNext rfl⟩
  | true =>
    obtain ⟨levels, rfl⟩ : ∃ k, levels = k + 1 := ⟨levels - 1, by simp [operandNesting] at nests; omega⟩
    rw [subexpr, parses.inParentheses enough written (by simpa [operandNesting] using nests) follows.1]
    rfl

/-! ## Trees -/

/-- `...` is written in vararg functions only. -/
def DotsAllowed (rules : Rules N) (e : Expr N) : Prop := rules.isVararg = true ∨ e.NoDots

/-- A token that is an operand. -/
theorem firstOperand_atom {sub : Nat → ParseState N → ParseM (Option BinOpr × ExpDesc N × ParseState N)} {a : Atom N}
    {line lastLine : Nat} {calls : List (Call N)} (dots : DotsAllowed rules (.atom a)) (more : 0 < fuel)
    (noSuffix : headToken rest ∉ suffixTokens) :
    firstOperand rules fuel sub ⟨(a.token, line) :: rest, lastLine, calls⟩ = .ok (.simple a.token, ⟨rest, lastLine, calls⟩) := by
  have noUnary := atom_getunopr a.isAtom
  rcases List.mem_cons.1 a.isAtom with isName | isAtom
  · have isPrimary : (⟨(a.token, line) :: rest, lastLine, calls⟩ : ParseState N).token = tkName := isName
    have isPrefix : ∀ sub, prefixexp sub ⟨(a.token, line) :: rest, lastLine, calls⟩ =
        .ok (.simple a.token, ⟨rest, lastLine, calls⟩) := fun sub => by
      rw [prefixexp, isPrimary]
      rfl
    rw [firstOperand_primary (.inr isPrimary), primaryexp, isPrefix]
    exact primaryLoop_end noSuffix more
  · simp only [firstOperand, ParseState.token, noUnary, simpleexp]
    rcases List.mem_cons.1 isAtom with isDots | isSimple
    · -- `...`
      have allowed : rules.isVararg = true := dots.resolve_right fun noDots => noDots isDots
      have notSimple : a.token.token ∉ simpleTokens := by rw [isDots]; decide
      exact (if_neg notSimple).trans ((if_pos isDots).trans (if_pos allowed))
    · exact if_pos isSimple

theorem Parses.atom {a : Atom N} (more : 0 < fuel) (dots : DotsAllowed rules (.atom a)) :
    Parses rules fuel (.atom a) := by
  intro levels limit line tokens rest calls written _ _ follows
  cases written with
  | @cons _ t _ others reads written =>
    cases written
    obtain ⟨t, tokenLine⟩ := t
    cases reads
    rw [subexpr, List.singleton_append, firstOperand_atom dots more follows.1, Expr.calls, List.append_nil]
    rfl

theorem Parses.unary {op : UnOpr} {x : Expr N} (parses : Parses rules fuel x) (enough : x.operators < fuel) :
    Parses rules fuel (.unary op x) := by
  intro levels limit line tokens rest calls written _ nests follows
  have iterations := x.spine_le
  have fewer := operandSpine_le (unaryParen x) x.spine
  obtain ⟨t, tokenLine, others, rfl, isOp, written⟩ := written.mark
  obtain ⟨levels, rfl⟩ : ∃ k, levels = k + 1 := ⟨levels - 1, by simp [Expr.nesting] at nests; omega⟩
  have inside : subexpr rules fuel (levels + 1) unaryPriority ⟨others ++ rest, line, calls⟩ = _ :=
    parses.operand enough written (fun noParen op l r isBinary => by simpa [isBinary, unaryParen] using noParen)
      (by simpa [Expr.nesting] using nests) ⟨follows.1, fun o isNext noParen => (follows.2 o isNext).2 noParen⟩
  -- no operator above the unary ones is left
  rw [exprLoop_end (fun o isNext => (follows.2 o isNext).1) (by omega)] at inside
  have isUnary : getunopr t.token = some op := by rw [isOp, getunopr_unaryToken]
  have begins : firstOperand rules fuel (subexpr rules fuel (levels + 1)) ⟨(t, tokenLine) :: others ++ rest, line, calls⟩ =
      .ok ((Expr.unary op x).value, ⟨rest, line, calls ++ (Expr.unary op x).calls⟩) := by
    simp only [firstOperand, List.cons_append, ParseState.token, isUnary, next, List.tail_cons, inside]
    simp [bind, Except.bind, pure, Except.pure, call, Expr.value, Expr.calls]
  rw [subexpr, begins]
  rfl

theorem Parses.binary {op : BinOpr} {l r : Expr N} (parsesLeft : Parses rules fuel l) (parsesRight : Parses rules fuel r)
    (enough : (Expr.binary op l r).operators < fuel) : Parses rules fuel (.binary op l r) := by
  intro levels limit line tokens rest calls written fits nests follows
  have operators : l.operators + r.operators + 1 < fuel := enough
  have leftIterations := l.spine_le
  have rightIterations := r.spine_le
  have leftFewer := operandSpine_le (leftParen op l) l.spine
  have rightFewer := operandSpine_le (rightParen op r) r.spine
  have above := fits op l r rfl
  obtain ⟨first, second, rfl, isLeft, written⟩ := Written.append written
  obtain ⟨t, tokenLine, others, rfl, isOp, isRight⟩ := written.mark
  obtain ⟨levels, rfl⟩ : ∃ k, levels = k + 1 := ⟨levels - 1, by simp [Expr.nesting] at nests; omega⟩
  obtain ⟨nestsLeft, nestsRight⟩ := Nat.max_le.1 nests
  have isHead : headToken ((t, tokenLine) :: (others ++ rest)) = binaryToken op := isOp
  have isBinary : getbinopr (headToken ((t, tokenLine) :: (others ++ rest))) = some op := by
    rw [isHead, getbinopr_binaryToken]
  -- the left operand ends at the operator
  have begins : subexpr rules fuel (levels + 1 + 1) limit ⟨first ++ (t, tokenLine) :: (others ++ rest), line, calls⟩ = _ :=
    parsesLeft.operand (by omega) isLeft
      (fun noParen op' l' r' isOperator => by
        have below : leftPriority op ≤ rightPriority op' := by simpa [isOperator, leftParen] using noParen
        have lower := right_le_left op'
        omega)
      nestsLeft
      ⟨by rw [isHead]; exact binaryToken_suffix op, fun o isNext noParen => by
        cases isBinary.symm.trans isNext
        exact stops_left noParen⟩
  -- the right operand ends at the operator after the tree
  have inside : ∀ calls, subexpr rules fuel (levels + 1) (rightPriority op) ⟨others ++ rest, line, calls⟩ = _ :=
    fun calls => parsesRight.operand (by omega) isRight
      (fun noParen op' l' r' isOperator => by simpa [isOperator, rightParen] using noParen)
      (by simpa using nestsRight) ⟨follows.1, fun o isNext noParen => (follows.2 o isNext).2 noParen⟩
  rw [isBinary] at begins
  have goes : fuel - operandSpine (leftParen op l) l.spine = fuel - (Expr.binary op l r).spine + 1 := by
    simp only [Expr.spine]
    omega
  rw [List.append_assoc, List.cons_append, begins, goes, exprLoop, if_pos above]
  simp only [call, next, List.tail_cons, inside]
  rw [exprLoop_end (fun o isNext => (follows.2 o isNext).1) (by omega)]
  simp [bind, Except.bind, Expr.value, Expr.calls]

/-- A printed tree that fits is parsed up to the loop. -/
theorem Expr.parses (e : Expr N) (enough : e.operators < fuel) (dots : DotsAllowed rules e) : Parses rules fuel e := by
  induction e with
  | atom a => exact .atom (by omega) dots
  | unary op x operand => exact (operand enough dots).unary enough
  | binary op l r left right =>
    have operators : l.operators + r.operators + 1 < fuel := enough
    exact .binary (left (by omega) (dots.imp_right And.left)) (right (by omega) (dots.imp_right And.right)) enough

/-- Parentheses change nothing in the tree of a descriptor. -/
@[simp] theorem operandValue_tree (paren : Bool) (v : ExpDesc N) : (operandValue paren v).tree = v.tree := by
  cases paren <;> simp [operandValue, ExpDesc.tree]

/-- The descriptor of a tree stands for the tree. -/
theorem Expr.value_tree (e : Expr N) : e.value.tree = some e.tree := by
  induction e with
  | atom a => rfl
  | unary op x operand => simp [value, ExpDesc.tree, operand, tree]
  | binary op l r left right => simp [value, ExpDesc.tree, left, right, tree]

/-- A printed expression is parsed as its tree, to its end, if its operands are not nested too deep. -/
theorem subexpr_print (e : Expr N) {nCcalls line : Nat} (written : Written e.print tokens) (dots : DotsAllowed rules e)
    (nests : nCcalls + e.nesting < maxLevels) (enough : e.operators < fuel) :
    subexpr rules fuel (maxLevels - nCcalls) 0 ⟨tokens, line, []⟩ = .ok (none, e.value, ⟨[], line, e.calls⟩) ∧
      expr rules fuel nCcalls ⟨tokens, line, []⟩ = .ok (e.value, ⟨[], line, e.calls⟩) ∧ e.value.tree = some e.tree := by
  obtain ⟨levels, isLevels⟩ : ∃ levels, maxLevels - nCcalls = levels + 1 := ⟨maxLevels - nCcalls - 1, by omega⟩
  have iterations := e.spine_le
  -- no operator follows the end
  have fits : Fits 0 e := fun op _ _ _ => by cases op <;> decide
  have follows : Follows ([] : List (Token N × Nat)) (Stops · e) :=
    ⟨show tkEos ∉ suffixTokens by decide, fun o isNext => by cases isNext⟩
  have parses : subexpr rules fuel (levels + 1) 0 ⟨tokens ++ [], line, []⟩ = _ :=
    e.parses enough dots written fits (by omega) follows
  have ends : subexpr rules fuel (maxLevels - nCcalls) 0 ⟨tokens, line, []⟩ = .ok (none, e.value, ⟨[], line, e.calls⟩) := by
    rw [List.append_nil, List.nil_append] at parses
    rw [isLevels, parses]
    exact exprLoop_end (fun o isNext => by cases isNext) (by omega)
  refine ⟨ends, ?_, e.value_tree⟩
  rw [expr, ends]
  rfl

/-- `a ^ -(b .. c) * d` -/
theorem subexpr_print_example :
    let name (c : Char) : Atom Unit := ⟨⟨tkName, .ts [byte c]⟩, by simp [atomTokens]⟩
    let e : Expr Unit := .binary .mul
      (.binary .pow (.atom (name 'a')) (.unary .minus (.binary .concat (.atom (name 'b')) (.atom (name 'c')))))
      (.atom (name 'd'))
    let mark (token : Nat) : Token Unit × Nat := (⟨token, .r ()⟩, 1)
    let tokens := [((name 'a').token, 1), mark (tok '^'), mark (tok '-'), mark (tok '('), ((name 'b').token, 1),
      mark tkConcat, ((name 'c').token, 1), mark (tok ')'), mark (tok '*'), ((name 'd').token, 1)]
    let rules : Rules Unit := ⟨false, fun p => syntaxerror p [], fun p => syntaxerror p [], fun _ p => syntaxerror p []⟩
    subexpr rules 4 (maxLevels - 1) 0 ⟨tokens, 1, []⟩ = .ok (none, e.value, ⟨[], 1, e.calls⟩) ∧
      expr rules 4 1 ⟨tokens, 1, []⟩ = .ok (e.value, ⟨[], 1, e.calls⟩) ∧ e.value.tree = some e.tree := by
  intro name e mark tokens rules
  apply subexpr_print e
  · repeat' constructor
  · exact .inr (by simp [e, name, Expr.NoDots, tkName, tkDots])
  · decide
  · decide

end Gafq.Parser
