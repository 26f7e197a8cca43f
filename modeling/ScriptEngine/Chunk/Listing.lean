import ScriptEngine.Value.Render

/-!
# Listings of code

A chunk is listed with a headline, one line for each instruction, and the listings of the
functions among its constants, each behind an empty line.
-/

namespace ScriptEngine

/-- Fills a text with blanks on the right. -/
def padRight (width : Nat) (s : String) : String :=
  s ++ "".pushn ' ' (width - s.length)

/-- Fills a text on the left. -/
def padLeft (fill : Char) (width : Nat) (s : String) : String :=
  "".pushn fill (width - s.length) ++ s

/-- The index of the constant that a listing shows beside an instruction. -/
def Instruction.shownConstant? (i : Instruction) : Option Nat :=
  let index : Option Int := match i.op with
    | .loadConst | .registerLocal => some i.b
    | .captureUpvalue => some i.a
    | .newObject => some i.c
    | _ => none
  index.bind fun n => if 0 ≤ n then some n.toNat else none

/-- The line of an instruction. -/
def Instruction.line (describe : Constant → String) (constants : Array Constant) (index : Nat)
    (i : Instruction) : String :=
  let operands := [i.a, i.b, i.c].map fun n => padLeft ' ' 4 (toString n)
  let shown := match i.shownConstant?.bind (constants[·]?) with
    | some k => "    ; " ++ describe k
    | none => ""
  padLeft '0' 4 (toString index) ++ "  " ++ padRight 10 i.op.name ++ " " ++
    " ".intercalate operands ++ shown ++ "    @" ++ toString i.position.line ++ ":" ++
    toString i.position.column

/-- The lines of a chunk itself. -/
def Chunk.ownLines (describe : Constant → String) (c : Chunk) : List String :=
  let headline := "== " ++ c.name.getD "<script>" ++ " (params " ++ toString c.paramCount ++
    ", registers " ++ toString c.localFloor ++ ".." ++ toString c.tempCount ++ ") =="
  headline :: (c.code.toList.mapIdx fun index i => i.line describe c.constants index)

mutual

/-- The lines of a chunk and of the functions among its constants. `inner` gives the lines of a
constant that is a finished function. -/
def Chunk.lines (describe : Constant → String) (inner : Value → List String) :
    Chunk → List String
  | ⟨name, code, ⟨constants⟩, tempCount, localFloor, paramCount⟩ =>
    Chunk.ownLines describe ⟨name, code, ⟨constants⟩, tempCount, localFloor, paramCount⟩ ++
      constantLines describe inner constants

/-- The lines of the functions among constants. -/
def constantLines (describe : Constant → String) (inner : Value → List String) :
    List Constant → List String
  | [] => []
  | .value v :: constants => inner v ++ constantLines describe inner constants
  | .template chunk :: constants =>
    "" :: chunk.lines describe inner ++ constantLines describe inner constants

end

namespace Heap

/-- The short form of a constant. -/
def describeConstant (h : Heap) : Constant → String
  | .value v => h.describe v
  | .template chunk => "<function " ++ chunk.name.getD "anonymous" ++ ">"

/-- The listing of a chunk. Functions that stand in the constants of a chunk as finished values
are listed with the functions they make. -/
def listing (h : Heap) (c : Chunk) : String :=
  let inner (v : Value) : List String := match h.chunk? v with
    | some chunk => "" :: chunk.lines h.describeConstant fun _ => []
    | none => []
  String.join ((c.lines h.describeConstant inner).map (· ++ "\n"))

end Heap

end ScriptEngine
