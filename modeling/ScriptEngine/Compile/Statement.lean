import ScriptEngine.Compile.Function

/-!
# Code of statements

Conditions and loops are jumps whose targets are filled in when they are known. A `for` loop is
laid out as initialisation; test; leave; go to body; step; back to test; body; back to step.
-/

namespace ScriptEngine.Compile

/-- A block in braces behind the opening one. -/
def block (p : Productions) : Compile Operand := do
  modifyCurrent (·.openBlock)
  blockBody p p.budget
  modifyCurrent (·.closeBlock)
  return .done

/-- An expression in parentheses. -/
def condition (p : Productions) (dest : Int) : Compile Unit := do
  expect (.mark .lParen)
  let _ ← parse p Power.expression dest
  expect (.mark .rParen)

def ifStatement (p : Productions) (dest : Int) : Compile Operand := do
  condition p dest
  let skip ← emit .jumpFalse dest
  p.statement
  let t ← next
  if t.kind = .keyword .elseWord then
    let exit ← emit .jump 0
    patch skip (← here)
    p.statement
    patch exit (← here)
  else
    pushBack t
    patch skip (← here)
  return .done

def whileStatement (p : Productions) (dest : Int) : Compile Operand := do
  let top ← here
  condition p dest
  let exit ← emit .jumpFalse dest
  openLoop
  p.statement
  let _ ← emit .jump top
  let behind ← here
  patch exit behind
  closeLoop behind top
  return .done

def doStatement (p : Productions) (dest : Int) : Compile Operand := do
  let top ← here
  openLoop
  p.statement
  expect (.keyword .whileWord)
  let check ← here
  condition p dest
  let _ ← emit .jumpTrue dest top
  closeLoop (← here) check
  return .temp

/-- The name that a declaration starts with. -/
def variableName (t : Token) : Compile String :=
  match t.kind with
  | .ident s => return s
  | kind => fail (.expected .variableName kind) t.position

/-- Declares a variable whose name is the constant at `k`: inside a block it gets a register. -/
def declareVariable (s : String) (k : Int) (place : Position) : Compile (Option Int) := do
  let state ← get
  if state.current.atTopLevel then return none
  else
    let register ← declare s
    let _ ← emitAt place .registerLocal register k
    return some register

/-- Gives a variable the value of `dest`. -/
def storeVariable (slot : Option Int) (k dest : Int) (place : Position) : Compile Unit :=
  match slot with
  | some register => discard (emitAt place .copy register dest)
  | none => do
    let _ ← emitAt place .loadConst (dest + 1) k
    let _ ← emitAt place .dotSet 0 (dest + 1) dest

/-- Gives a variable that has no initial value the value void. -/
def clearVariable (slot : Option Int) (k dest : Int) (place : Position) : Compile Unit :=
  match slot with
  | some register => discard (emitAt place .loadVoid register)
  | none => do
    let _ ← emitAt place .loadConst dest k
    let _ ← emitAt place .dotSetVoid 0 dest

/-- The initial value of a variable, `t` being the token behind its name. Gives the token behind
the declaration. -/
def initialise (p : Productions) (slot : Option Int) (k dest : Int) (place : Position)
    (t : Token) : Compile Token :=
  if t.kind = .mark .assign then do
    let _ ← parse p Power.comma dest
    storeVariable slot k dest place
    next
  else do
    clearVariable slot k dest place
    return t

/-- Declarations of variables behind their keyword, up to a token that ends the statement. -/
def declarations (p : Productions) (dest : Int) : Nat → Compile Operand
  | 0 => throw .exhausted
  | fuel + 1 => do
    let t ← next
    let s ← variableName t
    let k ← name s
    let slot ← declareVariable s k t.position
    let t ← initialise p slot k dest t.position (← next)
    if t.kind = .mark .comma then declarations p dest fuel
    else if isTerminator t.kind then
      pushBack t
      return .temp
    else fail (.expected (.sign .semicolon) t.kind) t.position

/-- The part of a `for` loop that runs first. -/
def forStart (p : Productions) (dest : Int) : Compile Unit := do
  let t ← next
  if t.kind = .keyword .var then
    let _ ← declarations p dest p.budget
    expect (.mark .semicolon)
  else if t.kind = .mark .semicolon then return ()
  else
    let _ ← p.expression t Power.expression dest
    expect (.mark .semicolon)

/-- The test of a `for` loop and its jump out of the loop; a missing test has none. -/
def forTest (p : Productions) (dest : Int) : Compile (Option Nat) := do
  let t ← next
  if t.kind = .mark .semicolon then return none
  else
    let _ ← p.expression t Power.expression dest
    expect (.mark .semicolon)
    some <$> emit .jumpFalse dest

/-- The step of a `for` loop, which may be missing. -/
def forStep (p : Productions) (dest : Int) : Compile Unit := do
  let t ← next
  if t.kind = .mark .rParen then return ()
  else
    let _ ← p.expression t Power.expression dest
    expect (.mark .rParen)

/-- Points a jump to a target, if there is one. -/
def patchExit (exit : Option Nat) (target : Nat) : Compile Unit :=
  match exit with
  | some index => patch index target
  | none => return ()

def forStatement (p : Productions) (dest : Int) : Compile Operand := do
  expect (.mark .lParen)
  modifyCurrent (·.openBlock)
  forStart p dest
  let top ← here
  let exit ← forTest p dest
  let toBody ← emit .jump 0
  let step ← here
  forStep p dest
  let _ ← emit .jump top
  patch toBody (← here)
  openLoop
  p.statement
  let _ ← emit .jump step
  let behind ← here
  patchExit exit behind
  closeLoop behind step
  modifyCurrent (·.closeBlock)
  return .done

def returnStatement (p : Productions) (dest : Int) (place : Position) : Compile Operand := do
  if ← atTerminator then
    let _ ← emitAt place .retVoid 0
  else
    let _ ← parse p Power.expression dest
    let _ ← emitAt place .ret dest
  return .temp

/-- A jump out of the innermost loop, or to its next turn. -/
def leaveLoop (word : Keyword) (place : Position) : Compile Operand := do
  match (← get).current.loops with
  | [] => fail (.outsideLoop word) place
  | labels :: loops =>
    let index ← emitAt place .jump 0
    let labels :=
      if word = .breakWord then { labels with breaks := labels.breaks ++ [index] }
      else { labels with continues := labels.continues ++ [index] }
    modifyCurrent ({ · with loops := labels :: loops })
    return .temp

/-! ## Productions -/

/-- The code of what starts an expression or a statement, `t` being its first token. -/
def leading (p : Productions) (t : Token) (power : Nat) (dest : Int) : Compile Operand := do
  let place := t.position
  if t.kind.startsStatement && Power.expression ≤ power then
    fail (.statementInExpression t.kind) place
  else
  match t.kind with
  | .number x => loadConstant (.number x) dest place
  | .str s => loadConstant (.str s) dest place
  | .ident s => loadName s dest place
  | .finish => fail (.unexpected t.kind) place
  | .mark sign =>
    match sign with
    | .lParen => paren p dest
    | .lBracket => arrayLiteral p dest place
    | .dictOpen => dictLiteral p dest place
    | .lBrace => block p
    | .sub => unary p .negate Power.unary dest place
    | .add => unary p .toNumber Power.unary dest place
    | .not => unary p .not Power.not dest place
    | .bitNot => unary p .bitNot Power.not dest place
    | .hash => unary p .char Power.convert dest place
    | .dollar => unary p .strOf Power.convert dest place
    | .inc => stepBefore p .inc dest place
    | .dec => stepBefore p .dec dest place
    | _ => fail (.unexpected t.kind) place
  | .keyword word =>
    match word with
    | .trueWord =>
      let _ ← emitAt place .loadTrue dest
      return .temp
    | .falseWord =>
      let _ ← emitAt place .loadFalse dest
      return .temp
    | .this =>
      let _ ← emitAt place .copy dest 1
      return .temp
    | .global =>
      let _ ← emitAt place .loadGlobal dest
      return .temp
    | .function => function p power dest place
    | .new => newInstance p dest place
    | .typeOf => unary p .typeOf Power.convert dest place
    | .int => unary p .toInt Power.convert dest place
    | .real => unary p .toReal Power.convert dest place
    | .string => unary p .toStr Power.convert dest place
    | .delete => delete p dest place
    | .ifWord => ifStatement p dest
    | .whileWord => whileStatement p dest
    | .doWord => doStatement p dest
    | .forWord => forStatement p dest
    | .var => declarations p dest p.budget
    | .returnWord => returnStatement p dest place
    | .breakWord | .continueWord => leaveLoop word place
    | .switch | .case | .default | .classWord | .super => fail (.unsupported t.kind) place
    | .elseWord | .instanceOf => fail (.unexpected t.kind) place

/-- Continues an expression as long as tokens bind more strongly than the power. -/
def climb (p : Productions) (power : Nat) (dest : Int) : Nat → Operand → Compile Operand
  | 0, _ => throw .exhausted
  | fuel + 1, left => do
    let t ← next
    if t.kind.leftPower ≤ power then
      pushBack t
      return left
    else climb p power dest fuel (← trailing p t left dest)

/-- An expression, or a statement if the power allows one. -/
def expression (p : Productions) (first : Token) (power : Nat) (dest : Int) :
    Compile Operand := do
  let left ← leading p first power dest
  if left = .done then return left else climb p power dest p.budget left

/-- A statement with what ends it. The end of a block or of the source is not consumed. -/
def statement (p : Productions) : Compile Unit := do
  let t ← next
  if t.kind = .mark .semicolon then return ()
  else if isTerminator t.kind then pushBack t
  else if (← p.expression t Power.statement resultRegister) = .done then return ()
  else
    let t ← next
    if t.kind = .mark .semicolon then return ()
    else if isTerminator t.kind then pushBack t
    else fail (.expected (.sign .semicolon) t.kind) t.position

mutual

/-- Expressions nested at most as deeply as the fuel allows. -/
def expressionWithin : Nat → Token → Nat → Int → Compile Operand
  | 0, _, _, _ => throw .exhausted
  | fuel + 1, first, power, dest =>
    expression ⟨fuel, expressionWithin fuel, statementWithin fuel⟩ first power dest

/-- Statements nested at most as deeply as the fuel allows. -/
def statementWithin : Nat → Compile Unit
  | 0 => throw .exhausted
  | fuel + 1 => statement ⟨fuel, expressionWithin fuel, statementWithin fuel⟩

end

/-- The grammar, with constructs nested at most as deeply as the fuel allows. -/
def productions (fuel : Nat) : Productions :=
  ⟨fuel, expressionWithin fuel, statementWithin fuel⟩

/-- The statements of a script, up to the end of the source. -/
def scriptBody (p : Productions) : Nat → Compile Unit
  | 0 => throw .exhausted
  | fuel + 1 => do
    let t ← next
    if t.kind = .finish then return ()
    else if t.kind = .mark .rBrace then fail (.unexpected t.kind) t.position
    else
      pushBack t
      p.statement
      scriptBody p fuel

/-- A whole script, which returns the value of its last expression. -/
def script (p : Productions) : Compile Chunk := do
  scriptBody p p.budget
  let _ ← emit .ret resultRegister
  return (← get).current.chunk

end ScriptEngine.Compile
