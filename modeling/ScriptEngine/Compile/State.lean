import ScriptEngine.Chunk
import ScriptEngine.Token.Lexer

/-!
# The state of a compilation

Code is made in one pass over the tokens, without a tree. The state holds the lexer, the
function whose code is being made with the functions around it, and the position of the token
read last, which instructions get unless they are given another.

Inside a function, a block maps the names it declares to registers below zero. Registers of
closed blocks are not used again.
-/

namespace ScriptEngine

/-- The register in which statements leave their value. -/
def resultRegister : Int := 2

/-- The names that one block declares and their registers, the newest first. -/
abbrev Block := List (String × Int)

/-- The jumps of a loop that wait for their targets. -/
structure LoopLabels where
  breaks : List Nat := []
  continues : List Nat := []
  deriving Inhabited

/-- A function, or the script itself, whose code is being made. -/
structure FunctionState where
  chunk : Chunk
  /-- The open blocks, innermost first. A script has none at its top level. -/
  blocks : List Block := []
  /-- The register of the next local. -/
  nextLocal : Int := -1
  /-- The loops around the current place, innermost first. -/
  loops : List LoopLabels := []
  deriving Inhabited

namespace FunctionState

/-- The script: no block is open, so its declarations are members of the scope it runs in. -/
def script : FunctionState :=
  { chunk := Chunk.empty none }

/-- Whether no block is open. -/
def atTopLevel (f : FunctionState) : Bool :=
  f.blocks.isEmpty

/-- The register of a name: that of the innermost open block that declares it. -/
def resolve (f : FunctionState) (name : String) : Option Int :=
  f.blocks.findSome? (·.lookup name)

def openBlock (f : FunctionState) : FunctionState :=
  { f with blocks := [] :: f.blocks }

def closeBlock (f : FunctionState) : FunctionState :=
  { f with blocks := f.blocks.tail }

/-- Declares a name in the innermost block, and gives its register. A second declaration in the
same block keeps the register. -/
def declare (f : FunctionState) (name : String) : FunctionState × Int :=
  let (block, outer) := match f.blocks with
    | [] => ([], [])
    | block :: outer => (block, outer)
  match block.lookup name with
  | some register => (f, register)
  | none =>
    let register := f.nextLocal
    ({ f with
        blocks := ((name, register) :: block) :: outer
        nextLocal := register - 1
        chunk := { f.chunk with localFloor := min f.chunk.localFloor register } },
      register)

/-- A function whose parameters are in the registers -1, -2, ... -/
def function (name : Option String) (params : List String) : FunctionState :=
  let chunk := { Chunk.empty name with paramCount := params.length }
  params.foldl (fun f param => (f.declare param).1) { chunk, blocks := [[]] }

end FunctionState

/-- The state of a compilation. -/
structure CompileState where
  lexer : Lexer
  /-- The function whose code is being made. -/
  current : FunctionState := .script
  /-- The functions around it, innermost first. -/
  enclosing : List FunctionState := []
  /-- Where the token read last starts. -/
  position : Position := ⟨1, 1⟩
  deriving Inhabited

/-- A step of a compilation. -/
abbrev Compile := EStateM Failure CompileState

/-- Where the value of an expression came from, which decides whether it can be assigned to. -/
inductive Operand where
  /-- Computed into the destination register. -/
  | temp
  /-- Copied out of a local register by the instruction at `load`. -/
  | slot (register : Int) (load : Nat)
  /-- Read as a member by the instruction at `load`. -/
  | member (receiver key : Int) (load : Nat)
  /-- A statement that ends by itself. -/
  | done
  deriving DecidableEq, Inhabited

namespace Compile

/-! ## Tokens -/

def fail {α : Type} (cause : GrammarFault) (place : Position) : Compile α :=
  throw (.error (.grammar cause place))

/-- Reads the next token. -/
def next : Compile Token := do
  let s ← get
  match s.lexer.next with
  | (.ok t, lexer) =>
    set { s with lexer, position := t.position }
    return t
  | (.error e, _) => throw (.error e)

/-- Gives a token back. -/
def pushBack (t : Token) : Compile Unit :=
  modify fun s => { s with lexer := s.lexer.pushBack t }

/-- Reads a token that must be of the given kind. -/
def expect (kind : Token.Kind) : Compile Unit := do
  let t ← next
  if t.kind = kind then return ()
  else fail (.expected (.token kind) t.kind) t.position

/-- Whether a token ends a statement. -/
def isTerminator (kind : Token.Kind) : Bool :=
  kind = .mark .semicolon || kind = .mark .rBrace || kind = .finish

/-- Whether the next token ends a statement; it is not consumed. -/
def atTerminator : Compile Bool := do
  let t ← next
  pushBack t
  return isTerminator t.kind

/-! ## Emission -/

def modifyCurrent (f : FunctionState → FunctionState) : Compile Unit :=
  modify fun s => { s with current := f s.current }

def modifyChunk (f : Chunk → Chunk) : Compile Unit :=
  modifyCurrent fun c => { c with chunk := f c.chunk }

/-- The index of the next instruction. -/
def here : Compile Nat := do
  return (← get).current.chunk.code.size

/-- Appends an instruction for a place in the source, and gives its index. -/
def emitAt (place : Position) (op : Op) (a : Int) (b : Int := 0) (c : Int := 0) :
    Compile Nat := do
  let index ← here
  modifyChunk (·.emit { op, a, b, c, position := place })
  return index

/-- Appends an instruction for the token read last, and gives its index. -/
def emit (op : Op) (a : Int) (b : Int := 0) (c : Int := 0) : Compile Nat := do
  emitAt (← get).position op a b c

/-- Points the jump at an index to a target. -/
def patch (index target : Nat) : Compile Unit :=
  modifyChunk (·.patchJump index target)

/-- The index of a constant. -/
def constant (k : Constant) : Compile Int :=
  modifyGet fun s =>
    let (chunk, index) := s.current.chunk.addConstant k
    ((index : Int), { s with current := { s.current with chunk } })

/-- The index of a string constant. -/
def name (s : String) : Compile Int :=
  constant (.value (.str s))

/-- Makes the instruction at an index do nothing. -/
def erase (index : Nat) : Compile Unit :=
  modifyChunk (·.modifyAt index ({ · with op := .nop }))

/-- The first register above three others. -/
def above (a b c : Int) : Int :=
  max (max a b) c + 1

/-- Lets the member load at an index write into a register above all of its operands, with one
more register in reserve, and gives that register. -/
def retarget (load : Nat) (dest receiver key : Int) : Compile Int := do
  let t := above dest receiver key
  modifyChunk fun c => (c.modifyAt load ({ · with a := t })).reserve (t + 1)
  return t

/-- Declares a name in the innermost block and gives its register. -/
def declare (name : String) : Compile Int :=
  modifyGet fun s =>
    let (current, register) := s.current.declare name
    (register, { s with current })

/-! ## Functions -/

/-- Starts the code of a function inside the current one. -/
def enterFunction (f : FunctionState) : Compile Unit :=
  modify fun s => { s with current := f, enclosing := s.current :: s.enclosing }

/-- Goes back to the function around the current one, and gives the finished chunk. -/
def leaveFunction : Compile Chunk :=
  modifyGet fun s =>
    match s.enclosing with
    | outer :: enclosing => (s.current.chunk, { s with current := outer, enclosing })
    | [] => (s.current.chunk, { s with current := .script })

/-! ## Loops -/

def openLoop : Compile Unit :=
  modifyCurrent fun f => { f with loops := {} :: f.loops }

/-- Ends the innermost loop: its breaks go to `exit` and its continues to `resume`. -/
def closeLoop (exit resume : Nat) : Compile Unit :=
  modifyCurrent fun f =>
    match f.loops with
    | [] => f
    | labels :: loops =>
      let chunk := labels.breaks.foldl (fun c index => c.patchJump index exit) f.chunk
      let chunk := labels.continues.foldl (fun c index => c.patchJump index resume) chunk
      { f with chunk, loops }

end Compile

end ScriptEngine
