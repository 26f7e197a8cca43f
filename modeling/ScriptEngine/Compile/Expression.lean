import ScriptEngine.Compile.Operator
import ScriptEngine.Compile.State

/-!
# Code of expressions

Every construct writes its value into a destination register, uses only registers above it for
intermediate values, and tells where the value came from. Assignments, steps and deletions find
the load of their target already emitted: it is erased, sent to another register or replaced.

The constructs refer to each other through `Productions`: the two entry points of the grammar,
which the constructs here call but do not define, and a bound on the length of lists.
-/

namespace ScriptEngine

/-- The entry points of the grammar that its constructs call. -/
structure Productions where
  /-- A bound on the number of items of a list. -/
  budget : Nat
  /-- Makes the code of the expression that starts with a token: it goes on as long as tokens
  bind more strongly than the power, and its value goes into the destination register. -/
  expression : (first : Token) → (power : Nat) → (dest : Int) → Compile Operand
  /-- Makes the code of one statement. -/
  statement : Compile Unit

namespace Compile

/-- Reads an expression from its first token on. -/
def parse (p : Productions) (power : Nat) (dest : Int) : Compile Operand := do
  p.expression (← next) power dest

/-! ## Names and unary operators -/

/-- Loads a constant. -/
def loadConstant (v : Value) (dest : Int) (place : Position) : Compile Operand := do
  let k ← constant (.value v)
  let _ ← emitAt place .loadConst dest k
  return .temp

/-- Reads a name: a local from its register, all else as a member of the activation. A name that
an enclosing function declares is linked first. -/
def loadName (s : String) (dest : Int) (place : Position) : Compile Operand := do
  let state ← get
  match state.current.resolve s with
  | some register =>
    let load ← emitAt place .copy dest register
    return .slot register load
  | none =>
    let k ← name s
    if state.enclosing.any fun f => (f.resolve s).isSome then
      let _ ← emitAt place .captureUpvalue k
    let _ ← emitAt place .loadConst dest k
    let load ← emitAt place .dot dest 0 dest
    return .member 0 dest load

/-- An operation on the value of an operand read with a power. -/
def unary (p : Productions) (op : Op) (power : Nat) (dest : Int) (place : Position) :
    Compile Operand := do
  let _ ← parse p power dest
  let _ ← emitAt place op dest dest
  return .temp

/-- The operation of a conversion word. -/
def castOp? : Token.Kind → Option Op
  | .keyword .int => some .toInt
  | .keyword .real => some .toReal
  | .keyword .string => some .toStr
  | _ => none

/-- What stands behind an opening parenthesis: an expression and the closing one, or a
conversion word and the closing one, which makes a cast. -/
def paren (p : Productions) (dest : Int) : Compile Operand := do
  let first ← next
  let inner : Compile Operand := do
    let left ← p.expression first Power.expression dest
    expect (.mark .rParen)
    return left
  match castOp? first.kind with
  | some op =>
    let second ← next
    if second.kind = .mark .rParen then unary p op Power.convert dest first.position
    else
      pushBack second
      inner
  | none => inner

/-! ## Lists -/

/-- Reads arguments up to the closing parenthesis into the registers from `register` on, and
gives the first register behind them. -/
def argumentsFrom (p : Productions) (register : Int) : Nat → Compile Int
  | 0 => throw .exhausted
  | fuel + 1 => do
    let _ ← parse p Power.comma register
    let t ← next
    if t.kind = .mark .comma then argumentsFrom p (register + 1) fuel
    else if t.kind = .mark .rParen then return register + 1
    else fail (.expected (.commaOr .rParen) t.kind) t.position

/-- Reads an argument list behind its opening parenthesis. -/
def arguments (p : Productions) (first : Int) : Compile Int := do
  let t ← next
  if t.kind = .mark .rParen then return first
  else
    pushBack t
    argumentsFrom p first p.budget

/-- Reads the items of an array up to the closing bracket; a missing item is void. -/
def arrayItems (p : Productions) (register : Int) : Nat → Compile Int
  | 0 => throw .exhausted
  | fuel + 1 => do
    let t ← next
    if t.kind = .mark .rBracket then return register
    else if t.kind = .mark .comma then
      let _ ← emit .loadVoid register
      arrayItems p (register + 1) fuel
    else
      let _ ← p.expression t Power.comma register
      let t ← next
      if t.kind = .mark .comma then arrayItems p (register + 1) fuel
      else if t.kind = .mark .rBracket then return register + 1
      else fail (.expected (.commaOr .rBracket) t.kind) t.position

def arrayLiteral (p : Productions) (dest : Int) (place : Position) : Compile Operand := do
  let behind ← arrayItems p (dest + 1) p.budget
  let _ ← emitAt place .makeArray dest (dest + 1) behind
  return .temp

/-- Reads the key of a dictionary entry from its first token on, with what separates it from the
value: a name and a colon, or an expression and an arrow or colon. -/
def dictKey (p : Productions) (t : Token) (register : Int) : Compile Unit := do
  let spelled : Compile Unit := do
    let _ ← p.expression t Power.comma register
    let sep ← next
    if sep.kind = .mark .arrow || sep.kind = .mark .colon then return ()
    else fail (.expected (.sign .arrow) sep.kind) sep.position
  match t.kind with
  | .ident s =>
    let behind ← next
    if behind.kind = .mark .colon then
      let k ← name s
      let _ ← emit .loadConst register k
    else
      pushBack behind
      spelled
  | _ => spelled

/-- Reads the entries of a dictionary up to the closing bracket. -/
def dictEntries (p : Productions) (register : Int) : Nat → Compile Int
  | 0 => throw .exhausted
  | fuel + 1 => do
    let t ← next
    if t.kind = .mark .rBracket then return register
    else
      dictKey p t register
      let _ ← parse p Power.comma (register + 1)
      let t ← next
      if t.kind = .mark .comma then dictEntries p (register + 2) fuel
      else if t.kind = .mark .rBracket then return register + 2
      else fail (.expected (.commaOr .rBracket) t.kind) t.position

def dictLiteral (p : Productions) (dest : Int) (place : Position) : Compile Operand := do
  let behind ← dictEntries p (dest + 1) p.budget
  let _ ← emitAt place .makeDict dest (dest + 1) behind
  return .temp

/-! ## Targets -/

/-- An assignment to what the left operand was loaded from, plain or with an operation. -/
def assign (p : Productions) (left : Operand) (op? : Option Op) (dest : Int) (place : Position) :
    Compile Operand := do
  match left, op? with
  | .slot register load, none =>
    erase load
    let _ ← parse p (Power.assignment - 1) dest
    let _ ← emitAt place .copy register dest
    return .temp
  | .slot register _, some op =>
    let _ ← parse p (Power.assignment - 1) (dest + 1)
    let _ ← emitAt place op dest dest (dest + 1)
    let _ ← emitAt place .copy register dest
    return .temp
  | .member receiver key load, none =>
    erase load
    let t := above dest receiver key
    let _ ← parse p (Power.assignment - 1) t
    let _ ← emitAt place .dotSet receiver key t
    let _ ← emitAt place .copy dest t
    return .temp
  | .member receiver key load, some op =>
    let t ← retarget load dest receiver key
    let _ ← parse p (Power.assignment - 1) (t + 1)
    let _ ← emitAt place op t t (t + 1)
    let _ ← emitAt place .dotSet receiver key t
    let _ ← emitAt place .copy dest t
    return .temp
  | _, _ => fail .notAssignable place

/-- A step in front of its operand: the value is the new one. -/
def stepBefore (p : Productions) (op : Op) (dest : Int) (place : Position) : Compile Operand := do
  match ← parse p Power.unary dest with
  | .slot register load =>
    erase load
    let _ ← emitAt place op dest register
    return .temp
  | .member receiver key load =>
    let t ← retarget load dest receiver key
    let _ ← emitAt place op t t
    let _ ← emitAt place .dotSet receiver key t
    let _ ← emitAt place .copy dest t
    return .temp
  | _ => fail .notAssignable place

/-- A step behind its operand: the value is the old one. -/
def stepAfter (left : Operand) (op : Op) (dest : Int) (place : Position) : Compile Operand := do
  match left with
  | .slot register load =>
    erase load
    let _ ← emitAt place op dest register
    return .temp
  | .member receiver key load =>
    let t ← retarget load dest receiver key
    let _ ← emitAt place op (t + 1) t
    let _ ← emitAt place .dotSet receiver key t
    let _ ← emitAt place .copy dest (t + 1)
    return .temp
  | _ => fail .notAssignable place

/-- A deletion: a local becomes void, a member is removed. -/
def delete (p : Productions) (dest : Int) (place : Position) : Compile Operand := do
  match ← parse p Power.convert dest with
  | .slot register load =>
    erase load
    let _ ← emitAt place .loadVoid register
  | .member receiver key load =>
    modifyChunk (·.modifyAt load fun _ =>
      { op := .delete, a := receiver, b := key, c := 0, position := place })
  | _ => fail .notAssignable place
  let _ ← emitAt place .loadVoid dest
  return .temp

/-! ## Choices -/

/-- The branches of a conditional expression, the condition being in `dest`. -/
def ternary (p : Productions) (dest : Int) (place : Position) : Compile Operand := do
  let skip ← emitAt place .jumpFalse dest
  let _ ← parse p Power.comma dest
  expect (.mark .colon)
  let exit ← emitAt place .jump 0
  patch skip (← here)
  let _ ← parse p (Power.ternary - 1) dest
  patch exit (← here)
  return .temp

/-- The right side of a logical operator: it runs only if the left side, in `dest`, does not
decide. `leave` jumps to the decided case, whose value `decided` loads. -/
def shortCircuit (p : Productions) (leave op decided : Op) (power : Nat) (dest : Int)
    (place : Position) : Compile Operand := do
  let skip ← emitAt place leave dest
  let _ ← parse p power (dest + 1)
  let _ ← emitAt place op dest dest (dest + 1)
  let exit ← emitAt place .jump 0
  patch skip (← here)
  let _ ← emitAt place decided dest
  patch exit (← here)
  return .temp

/-! ## Continuations -/

/-- A member selected by name behind a dot. -/
def dotMember (dest : Int) (place : Position) : Compile Operand := do
  let t ← next
  match t.kind with
  | .ident s =>
    let k ← name s
    let _ ← emitAt place .loadConst (dest + 1) k
    let load ← emitAt place .dot dest dest (dest + 1)
    return .member dest (dest + 1) load
  | kind => fail (.expected .memberName kind) t.position

/-- A member selected by the value of an expression in brackets. -/
def indexMember (p : Productions) (dest : Int) (place : Position) : Compile Operand := do
  let _ ← parse p Power.expression (dest + 1)
  expect (.mark .rBracket)
  let load ← emitAt place .dot dest dest (dest + 1)
  return .member dest (dest + 1) load

/-- The code of what continues an expression: `left` tells where its value so far, which is in
`dest`, came from, and `t` is the token that continues it. -/
def trailing (p : Productions) (t : Token) (left : Operand) (dest : Int) : Compile Operand := do
  let place := t.position
  let power := t.kind.leftPower
  match t.kind.binaryOp?, t.kind.compoundOp? with
  | some op, _ =>
    let _ ← parse p power (dest + 1)
    let _ ← emitAt place op dest dest (dest + 1)
    return .temp
  | none, some op => assign p left (some op) dest place
  | none, none =>
    match t.kind with
    | .mark .assign => assign p left none dest place
    | .mark .comma => parse p Power.comma dest
    | .mark .question => ternary p dest place
    | .mark .and => shortCircuit p .jumpFalse .and .loadFalse power dest place
    | .mark .or => shortCircuit p .jumpTrue .or .loadTrue power dest place
    | .mark .inc => stepAfter left .postInc dest place
    | .mark .dec => stepAfter left .postDec dest place
    | .mark .dot => dotMember dest place
    | .mark .lBracket => indexMember p dest place
    | .mark .lParen =>
      let behind ← arguments p (dest + 1)
      let _ ← emit .call dest (dest + 1) behind
      return .temp
    | kind => fail (.unexpected kind) place

/-! ## Instances -/

/-- Reads the dots and names behind the class name of an instance. The name of the class is a
fallback only if none follow. -/
def classPath (p : Productions) (fallback dest : Int) : Nat → Compile Int
  | 0 => throw .exhausted
  | fuel + 1 => do
    let t ← next
    if t.kind = .mark .dot then
      let _ ← trailing p t .temp dest
      classPath p (-1) dest fuel
    else
      pushBack t
      return fallback

/-- A new instance of a class. The constructor's arguments may be missing. -/
def newInstance (p : Productions) (dest : Int) (place : Position) : Compile Operand := do
  let t ← next
  let fallback ← match t.kind with
    | .ident s => name s
    | _ => pure (-1)
  let _ ← p.expression t Power.primary dest
  let fallback ← classPath p fallback dest p.budget
  let _ ← emitAt place .newObject dest dest fallback
  let t ← next
  if t.kind = .mark .lParen then
    let behind ← arguments p (dest + 1)
    let _ ← emitAt place .call dest (dest + 1) behind
  else
    pushBack t
    let _ ← emitAt place .call dest (dest + 1) (dest + 1)
  return .temp

end Compile

end ScriptEngine
