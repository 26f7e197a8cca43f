import ScriptEngine.Compile.Expression

/-!
# Code of functions

A function literal evaluates the defaults of its parameters where it stands, into the registers
above its destination, then makes the function from a template and binds it to the running
activation. A named function is also declared: as a local inside a block, otherwise as a member
of the scope that the script runs in.
-/

namespace ScriptEngine.Compile

/-- The name of a parameter, which none of those before it may have. -/
def parameterName (t : Token) (params : List String) : Compile String :=
  match t.kind with
  | .ident s =>
    if params.contains s then fail (.duplicateParameter s) t.position else return s
  | kind => fail (.expected .parameterName kind) t.position

/-- The code of the default of a parameter at a place, `behind` being the token behind its name.
Gives the token behind the parameter, and whether it has a default: once one has, all must. -/
def parameterDefault (p : Productions) (register : Int) (place : Position) (behind : Token)
    (defaults : Bool) : Compile (Token × Bool) :=
  if behind.kind = .mark .assign then do
    let _ ← parse p Power.comma register
    let behind ← next
    return (behind, true)
  else if defaults then fail .defaultsLast place
  else do
    let _ ← emitAt place .loadVoid register
    return (behind, false)

/-- Reads parameters from the first token of one on, up to the closing parenthesis, with the code
of their defaults. `params` are those before it, and `defaults` tells whether one of them has a
default. -/
def parameters (p : Productions) (dest : Int) :
    Nat → (t : Token) → (params : List String) → (defaults : Bool) → Compile (List String)
  | 0, _, _, _ => throw .exhausted
  | fuel + 1, t, params, defaults => do
    let param ← parameterName t params
    let behind ← next
    let (behind, defaults) ←
      parameterDefault p (dest + 1 + params.length) t.position behind defaults
    if behind.kind = .mark .comma then
      parameters p dest fuel (← next) (params ++ [param]) defaults
    else if behind.kind = .mark .rParen then return params ++ [param]
    else fail (.expected (.commaOr .rParen) behind.kind) behind.position

/-- Reads statements up to and including the closing brace. -/
def blockBody (p : Productions) : Nat → Compile Unit
  | 0 => throw .exhausted
  | fuel + 1 => do
    let t ← next
    if t.kind = .mark .rBrace then return ()
    else if t.kind = .finish then fail (.expected (.sign .rBrace) .finish) t.position
    else
      pushBack t
      p.statement
      blockBody p fuel

/-- Declares the parameters to the activation, the first of them in register `register`. -/
def registerParameters (register : Int) : List String → Compile Unit
  | [] => return ()
  | param :: params => do
    let k ← name param
    let _ ← emit .registerLocal register k
    registerParameters (register - 1) params

/-- The code of a function's body. -/
def functionBody (p : Productions) (params : List String) : Compile Unit := do
  registerParameters (-1) params
  expect (.mark .lBrace)
  blockBody p p.budget
  let _ ← emit .ret resultRegister

/-- The name of a function, if it has one, and the token behind it. -/
def functionName : Compile (Option String × Token) := do
  let first ← next
  match first.kind with
  | .ident s =>
    let t ← next
    return (some s, t)
  | _ => return (none, first)

/-- The parameter list of a function, `t` being its opening parenthesis. -/
def parameterList (p : Productions) (dest : Int) (t : Token) : Compile (List String) :=
  if t.kind = .mark .lParen then do
    let t ← next
    if t.kind = .mark .rParen then return [] else parameters p dest p.budget t [] false
  else fail (.expected (.sign .lParen) t.kind) t.position

/-- The register that a named function gets inside a block. -/
def functionSlot (named : Option String) : Compile (Option Int) := do
  let state ← get
  match named with
  | some s => if state.current.atTopLevel then return none else some <$> declare s
  | none => return none

/-- The chunk of a function with a name and parameters. -/
def functionChunk (p : Productions) (named : Option String) (params : List String) :
    Compile Chunk := do
  enterFunction (.function named params)
  functionBody p params
  leaveFunction

/-- Makes a function of a chunk, with the values of `count` defaults above the destination, and
binds it to the activation. -/
def makeFunction (chunk : Chunk) (dest : Int) (count : Nat) (place : Position) :
    Compile Unit := do
  let k ← constant (.template chunk)
  let _ ← emitAt place .loadConst dest k
  let _ ← emitAt place .makeFunc dest (dest + 1) (dest + 1 + count)
  let _ ← emitAt place .bindClosure dest

/-- Binds the name of a function: as a local if it has a register, otherwise as a member of the
activation. -/
def bindFunctionName (s : String) (slot : Option Int) (dest : Int) (place : Position) :
    Compile Unit := do
  let k ← name s
  match slot with
  | some register =>
    let _ ← emitAt place .registerLocal register k
    let _ ← emitAt place .copy register dest
  | none =>
    let _ ← emitAt place .loadConst (dest + 1) k
    let _ ← emitAt place .dotSet 0 (dest + 1) dest

/-- A function literal behind its keyword. A named one at the start of a statement is a
declaration, which ends by itself. -/
def function (p : Productions) (power : Nat) (dest : Int) (place : Position) :
    Compile Operand := do
  let (named, t) ← functionName
  let params ← parameterList p dest t
  let slot ← functionSlot named
  let chunk ← functionChunk p named params
  makeFunction chunk dest params.length place
  match named with
  | none => return .temp
  | some s =>
    bindFunctionName s slot dest place
    return if power = Power.statement then .done else .temp

end ScriptEngine.Compile
