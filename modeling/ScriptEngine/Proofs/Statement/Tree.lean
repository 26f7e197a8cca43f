import ScriptEngine.Engine
import ScriptEngine.Proofs.Statement.Segment

/-!
# Statements

The statements of the language as trees over a type of expressions, with two readings.

**Tokens.** The tokens of a tree whose expressions are phrases (`Stmt.kinds`). A tree `Fits` if its
tokens can be read as it: phrases are read as expressions, and what stands behind a statement ends
it. So an `else` belongs to the nearest `if`, since an `if` without one does not stop in front of it
(`Stmt.stops`).

**Meaning.** `Stmt.exec` runs a tree in a world that says what its expressions do and which value
they leave. A run gives the expressions that are evaluated, each with the engine at that moment, and
the signal with which the statement ends. Loops make a bounded number of turns; a loop that would
make more is cut off.
-/

namespace ScriptEngine

/-! ## Trees -/

/-- The two statements that end a turn of a loop. -/
inductive LoopExit where
  | breaks
  | continues
  deriving DecidableEq

def LoopExit.word : LoopExit → Keyword
  | .breaks => .breakWord
  | .continues => .continueWord

mutual

/-- A statement. Where a semicolon may be missing at the end of a block, `closed` tells whether it
is there. -/
inductive Stmt (ℓ : Type) where
  | empty (closed : Bool)
  | expr (e : ℓ) (closed : Bool)
  | block (body : Stmts ℓ)
  | ifThen (test : ℓ) (body : Stmt ℓ)
  | ifElse (test : ℓ) (body other : Stmt ℓ)
  | whileLoop (test : ℓ) (body : Stmt ℓ)
  | doLoop (body : Stmt ℓ) (test : ℓ) (closed : Bool)
  | forLoop (init test step : Option ℓ) (body : Stmt ℓ)
  | leave (exit : LoopExit) (closed : Bool)
  | ret (e : Option ℓ) (closed : Bool)

/-- Statements one behind the other. -/
inductive Stmts (ℓ : Type) where
  | nil
  | cons (t : Stmt ℓ) (ts : Stmts ℓ)

end

variable {ℓ α β : Type}

mutual

def Stmt.map (g : ℓ → β) : Stmt ℓ → Stmt β
  | .empty closed => .empty closed
  | .expr e closed => .expr (g e) closed
  | .block body => .block (body.map g)
  | .ifThen test body => .ifThen (g test) (body.map g)
  | .ifElse test body other => .ifElse (g test) (body.map g) (other.map g)
  | .whileLoop test body => .whileLoop (g test) (body.map g)
  | .doLoop body test closed => .doLoop (body.map g) (g test) closed
  | .forLoop init test step body => .forLoop (init.map g) (test.map g) (step.map g) (body.map g)
  | .leave exit closed => .leave exit closed
  | .ret e closed => .ret (e.map g) closed

def Stmts.map (g : ℓ → β) : Stmts ℓ → Stmts β
  | .nil => .nil
  | .cons t ts => .cons (t.map g) (ts.map g)

end

mutual

/-- The expressions of a statement, in the order of the text. -/
def Stmt.leaves : Stmt ℓ → List ℓ
  | .empty _ | .leave _ _ => []
  | .expr e _ => [e]
  | .block body => body.leaves
  | .ifThen test body | .whileLoop test body => test :: body.leaves
  | .ifElse test body other => test :: (body.leaves ++ other.leaves)
  | .doLoop body test _ => body.leaves ++ [test]
  | .forLoop init test step body => init.toList ++ (test.toList ++ (step.toList ++ body.leaves))
  | .ret e _ => e.toList

def Stmts.leaves : Stmts ℓ → List ℓ
  | .nil => []
  | .cons t ts => t.leaves ++ ts.leaves

end

mutual

/-- The first `break` or `continue` that is not in the body of a loop. -/
def Stmt.loose : Stmt ℓ → Option Keyword
  | .empty _ | .expr _ _ | .whileLoop _ _ | .doLoop _ _ _ | .forLoop _ _ _ _ | .ret _ _ => none
  | .block body => body.loose
  | .ifThen _ body => body.loose
  | .ifElse _ body other => body.loose.or other.loose
  | .leave exit _ => some exit.word

def Stmts.loose : Stmts ℓ → Option Keyword
  | .nil => none
  | .cons t ts => t.loose.or ts.loose

end

/-! ## Meaning -/

/-- How a run ends: with a result, with a failure, or cut off. -/
inductive Course (α : Type) where
  | done (a : α) (e : Engine)
  | failed (failure : Failure) (e : Engine)
  | cut

/-- A computation on an engine that tells which expressions it evaluates. -/
def Walk (ℓ α : Type) : Type :=
  Engine → List (ℓ × Engine) × Course α

namespace Walk

instance : Monad (Walk ℓ) where
  pure a := fun e => ([], .done a e)
  bind m k := fun e =>
    match m e with
    | (trace, .done a e') => (trace ++ (k a e').1, (k a e').2)
    | (trace, .failed failure e') => (trace, .failed failure e')
    | (trace, .cut) => (trace, .cut)

theorem bind_apply (m : Walk ℓ α) (k : α → Walk ℓ β) (e : Engine) : (m >>= k) e =
    match m e with
    | (trace, .done a e') => (trace ++ (k a e').1, (k a e').2)
    | (trace, .failed failure e') => (trace, .failed failure e')
    | (trace, .cut) => (trace, .cut) := rfl

theorem bind_pure (m : Walk ℓ α) : (m >>= pure) = m := by
  funext e
  rw [bind_apply]
  rcases m e with ⟨trace, ⟨a, e'⟩ | ⟨failure, e'⟩ | _⟩
  · exact congrArg (·, Course.done a e') (List.append_nil trace)
  · rfl
  · rfl

/-- Repeats a turn as long as it gives no result, but at most `n` times. -/
def loop (turn : Walk ℓ (Option α)) : Nat → Walk ℓ α
  | 0 => fun _ => ([], .cut)
  | n + 1 => do
    match ← turn with
    | none => loop turn n
    | some a => return a

end Walk

/-- How a statement ends. -/
inductive Signal where
  | next
  | broke
  | continued
  | left (v : Value)

/-- One turn of a loop: `enter` decides whether the body runs, and behind a body that was completed
or continued, `again` decides whether there is another turn. -/
def Walk.turn (enter : Walk ℓ Bool) (body : Walk ℓ Signal) (again : Walk ℓ Bool) :
    Walk ℓ (Option Signal) := do
  if ← enter then
    match ← body with
    | .next | .continued => return if ← again then none else some .next
    | .broke => return some .next
    | .left v => return some (.left v)
  else return some .next

/-- What expressions do. -/
structure World (ℓ : Type) where
  eval : ℓ → Script Unit
  /-- The value that the last expression left. -/
  value : Engine → Value

namespace World

variable (w : World ℓ)

/-- Evaluates an expression. -/
def visit (x : ℓ) : Walk ℓ Unit := fun e =>
  ([(x, e)], match w.eval x e with
    | .ok _ e' => .done () e'
    | .error failure e' => .failed failure e')

/-- The value of the expression evaluated last. -/
def last : Walk ℓ Value := fun e =>
  ([], .done (w.value e) e)

/-- Evaluates a condition. -/
def test (x : ℓ) : Walk ℓ Bool := do
  w.visit x
  return (← w.last).truthy

/-- Evaluates an expression that may be missing. -/
def visitIf : Option ℓ → Walk ℓ Unit
  | some x => w.visit x
  | none => return ()

/-- Evaluates a condition; a missing one is true. -/
def testIf : Option ℓ → Walk ℓ Bool
  | some x => w.test x
  | none => return true

end World

mutual

/-- Runs a statement, each loop in at most `n` turns. -/
def Stmt.exec (w : World ℓ) (n : Nat) : Stmt ℓ → Walk ℓ Signal
  | .empty _ => return .next
  | .expr e _ => do
    w.visit e
    return .next
  | .block body => body.exec w n
  | .ifThen test body => do
    if ← w.test test then body.exec w n else return .next
  | .ifElse test body other => do
    if ← w.test test then body.exec w n else other.exec w n
  | .whileLoop test body => Walk.loop (.turn (w.test test) (body.exec w n) (return true)) n
  | .doLoop body test _ => Walk.loop (.turn (return true) (body.exec w n) (w.test test)) n
  | .forLoop init test step body => do
    w.visitIf init
    Walk.loop (.turn (w.testIf test) (body.exec w n) (do w.visitIf step; return true)) n
  | .leave .breaks _ => return .broke
  | .leave .continues _ => return .continued
  | .ret none _ => return .left .void
  | .ret (some e) _ => do
    w.visit e
    return .left (← w.last)

/-- Runs statements one behind the other, as long as they are completed. -/
def Stmts.exec (w : World ℓ) (n : Nat) : Stmts ℓ → Walk ℓ Signal
  | .nil => return .next
  | .cons t ts => do
    match ← t.exec w n with
    | .next => ts.exec w n
    | signal => return signal

end

/-- Runs the statements of a script or a function. Its value is that of the return that leaves it,
or else that of the expression evaluated last. -/
def Stmts.run (w : World ℓ) (n : Nat) (ts : Stmts ℓ) : Walk ℓ Value := do
  match ← ts.exec w n with
  | .left v => return v
  | _ => w.last

/-! ## Tokens -/

/-- The next tokens of a lexer are of these kinds. -/
def Lexer.Shows : Lexer → List Token.Kind → Prop
  | _, [] => True
  | l, kind :: kinds => ∃ (t : Token) (l' : Lexer), l.next = (.ok t, l') ∧ t.kind = kind ∧ l'.Shows kinds

namespace Lexer

instance decidableShows : (l : Lexer) → (kinds : List Token.Kind) → Decidable (l.Shows kinds)
  | _, [] => .isTrue trivial
  | l, kind :: kinds =>
    match h : l.next with
    | (.error _, _) => .isFalse fun ⟨_, _, hnext, _⟩ => by rw [h] at hnext; cases hnext
    | (.ok t, l') =>
      if ht : t.kind = kind then
        match decidableShows l' kinds with
        | .isTrue hkinds => .isTrue ⟨t, l', h, ht, hkinds⟩
        | .isFalse hkinds => .isFalse fun ⟨_, _, hnext, _, hkinds'⟩ => by
          rw [h] at hnext
          cases hnext
          exact hkinds hkinds'
      else .isFalse fun ⟨_, _, hnext, ht', _⟩ => by
        rw [h] at hnext
        cases hnext
        exact ht ht'

/-- A token that was given back comes again. -/
theorem Shows.pushBack {l : Lexer} {kinds : List Token.Kind} (h : l.Shows kinds)
    (hpushed : l.pushed = none) (t : Token) : (l.pushBack t).Shows (t.kind :: kinds) := by
  refine ⟨t, { l.pushBack t with pushed := none }, rfl, rfl, ?_⟩
  rwa [show { l.pushBack t with pushed := none } = l by cases l; cases hpushed; rfl]

end Lexer

/-- The tokens of an expression, or of the declarations behind the word `var`. -/
structure Phrase where
  first : Token.Kind
  rest : List Token.Kind
  /-- What the first token shows: that this is no other statement, and not the end of one. -/
  opens : (first.startsStatement = true → first = .keyword .var) ∧
    Compile.isTerminator first = false ∧ first ≠ .mark .rParen
  /-- The source does not end in the middle. -/
  inside : .finish ∉ rest

namespace Phrase

def kinds (e : Phrase) : List Token.Kind :=
  e.first :: e.rest

/-- The compiler reads a phrase with a power, wherever it stands, as an expression that does not
end by itself. Behind it is the end of a statement or, inside of one, a closing parenthesis. -/
def Reads (e : Phrase) (power : Nat) : Prop :=
  ∀ (n : Nat) (s : CompileState) (t : Token) (behind : Token.Kind) (kinds : List Token.Kind),
    e.kinds.length < n → t.kind = e.first → s.lexer.Shows (e.rest ++ behind :: kinds) →
    (Compile.isTerminator behind = true ∨ Power.expression ≤ power ∧ behind = .mark .rParen) →
    ∃ a s', Compile.expressionWithin n t power resultRegister s = .ok a s' ∧ a ≠ .done ∧
      s'.lexer.Shows (behind :: kinds)

theorem first_ne_semicolon (e : Phrase) : e.first ≠ .mark .semicolon := by
  intro h
  have hopens := e.opens.2.1
  rw [h] at hopens
  cases hopens

theorem finish_notMem (e : Phrase) : .finish ∉ e.kinds := by
  intro h
  rcases List.mem_cons.1 h with hfirst | hrest
  · have hopens := e.opens.2.1
    rw [← hfirst] at hopens
    cases hopens
  · exact e.inside hrest

/-- The power with which the first part of a `for` loop is read. -/
def initPower (e : Phrase) : Nat :=
  if e.first = .keyword .var then Power.statement else Power.expression

/-- The tokens of a phrase that may be missing. -/
def kindsIf : Option Phrase → List Token.Kind
  | some e => e.kinds
  | none => []

end Phrase

/-- The end of a statement. -/
def closing (closed : Bool) : List Token.Kind :=
  if closed then [.mark .semicolon] else []

mutual

/-- The tokens of a statement. -/
def Stmt.kinds : Stmt Phrase → List Token.Kind
  | .empty closed => closing closed
  | .expr e closed => e.kinds ++ closing closed
  | .block body => .mark .lBrace :: (body.kinds ++ [.mark .rBrace])
  | .ifThen test body =>
    .keyword .ifWord :: .mark .lParen :: (test.kinds ++ .mark .rParen :: body.kinds)
  | .ifElse test body other =>
    .keyword .ifWord :: .mark .lParen :: (test.kinds ++ .mark .rParen :: (body.kinds ++
      .keyword .elseWord :: other.kinds))
  | .whileLoop test body =>
    .keyword .whileWord :: .mark .lParen :: (test.kinds ++ .mark .rParen :: body.kinds)
  | .doLoop body test closed =>
    .keyword .doWord :: (body.kinds ++ .keyword .whileWord :: .mark .lParen :: (test.kinds ++
      .mark .rParen :: closing closed))
  | .forLoop init test step body =>
    .keyword .forWord :: .mark .lParen :: (Phrase.kindsIf init ++ .mark .semicolon ::
      (Phrase.kindsIf test ++ .mark .semicolon :: (Phrase.kindsIf step ++ .mark .rParen ::
        body.kinds)))
  | .leave exit closed => .keyword exit.word :: closing closed
  | .ret e closed => .keyword .returnWord :: (Phrase.kindsIf e ++ closing closed)

def Stmts.kinds : Stmts Phrase → List Token.Kind
  | .nil => []
  | .cons t ts => t.kinds ++ ts.kinds

end

theorem finish_notMem_closing (closed : Bool) : .finish ∉ closing closed := by
  cases closed <;> simp [closing]

theorem Phrase.finish_notMem_kindsIf (e : Option Phrase) : .finish ∉ Phrase.kindsIf e := by
  cases e with
  | none => exact List.not_mem_nil
  | some e => exact e.finish_notMem

mutual

/-- The source does not end inside of a statement. -/
theorem Stmt.finish_notMem : (t : Stmt Phrase) → .finish ∉ t.kinds
  | .empty closed => finish_notMem_closing closed
  | .expr e closed => by simp [Stmt.kinds, e.finish_notMem, finish_notMem_closing]
  | .block body => by simp [Stmt.kinds, body.finish_notMem]
  | .ifThen test body => by simp [Stmt.kinds, test.finish_notMem, body.finish_notMem]
  | .ifElse test body other => by
    simp [Stmt.kinds, test.finish_notMem, body.finish_notMem, other.finish_notMem]
  | .whileLoop test body => by simp [Stmt.kinds, test.finish_notMem, body.finish_notMem]
  | .doLoop body test closed => by
    simp [Stmt.kinds, test.finish_notMem, body.finish_notMem, finish_notMem_closing]
  | .forLoop init test step body => by
    simp [Stmt.kinds, Phrase.finish_notMem_kindsIf, body.finish_notMem]
  | .leave exit closed => by simp [Stmt.kinds, finish_notMem_closing]
  | .ret e closed => by simp [Stmt.kinds, Phrase.finish_notMem_kindsIf, finish_notMem_closing]

theorem Stmts.finish_notMem : (ts : Stmts Phrase) → .finish ∉ ts.kinds
  | .nil => List.not_mem_nil
  | .cons t ts => by simp [Stmts.kinds, t.finish_notMem, ts.finish_notMem]

end

/-- Whether a token ends a block or the source. -/
def Token.Kind.endsBlock (kind : Token.Kind) : Bool :=
  kind = .mark .rBrace || kind = .finish

/-- Whether a statement ends in front of a token. -/
def Stmt.stops (kind : Token.Kind) : Stmt ℓ → Bool
  | .empty closed | .expr _ closed | .doLoop _ _ closed | .leave _ closed | .ret _ closed =>
    closed || kind.endsBlock
  | .block _ => true
  | .ifThen _ body => kind ≠ .keyword .elseWord && body.stops kind
  | .ifElse _ _ other => other.stops kind
  | .whileLoop _ body | .forLoop _ _ _ body => body.stops kind

/-- The first token of statements, `last` being behind them. -/
def Stmts.lead (last : Token.Kind) : Stmts Phrase → Token.Kind
  | .nil => last
  | .cons t _ => t.kinds.headD last

mutual

/-- The tokens of a statement can be read as it. -/
def Stmt.Fits : Stmt Phrase → Prop
  | .empty _ | .leave _ _ => True
  | .expr e _ => e.Reads Power.statement
  | .block body => body.Fits (.mark .rBrace)
  | .ifThen test body | .whileLoop test body => test.Reads Power.expression ∧ body.Fits
  | .ifElse test body other =>
    test.Reads Power.expression ∧ body.Fits ∧ body.stops (.keyword .elseWord) = true ∧ other.Fits
  | .doLoop body test _ =>
    body.Fits ∧ body.stops (.keyword .whileWord) = true ∧ test.Reads Power.expression
  | .forLoop init test step body =>
    (∀ e ∈ init, e.Reads e.initPower) ∧ (∀ e ∈ test, e.Reads Power.expression) ∧
      (∀ e ∈ step, e.Reads Power.expression) ∧ body.Fits
  | .ret e _ => ∀ x ∈ e, x.Reads Power.expression

/-- The tokens of statements can be read as them if `last` is behind them. -/
def Stmts.Fits (last : Token.Kind) : Stmts Phrase → Prop
  | .nil => True
  | .cons t ts => t.Fits ∧ t.kinds ≠ [] ∧ t.stops (ts.lead last) = true ∧ ts.Fits last

end

end ScriptEngine
