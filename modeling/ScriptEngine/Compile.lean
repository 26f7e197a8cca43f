import ScriptEngine.Compile.Statement

/-!
# Compilation

`compile` makes the chunk of a script. The tokens of a source bound both how deeply its
constructs nest and how long its lists are: every construct consumes a token, and between two
expressions at most one statement opens. Twice the number of characters is therefore fuel
enough.
-/

namespace ScriptEngine

/-- The fuel for a source. -/
def compileFuel (cs : List Char) : Nat :=
  2 * cs.length + 8

/-- The chunk of a script. -/
def compile (source : String) : Except Failure Chunk :=
  let cs := Source.normalize source.toList
  match (Compile.script (Compile.productions (compileFuel cs))).run
      { lexer := Lexer.ofText cs } with
  | .ok chunk _ => .ok chunk
  | .error failure _ => .error failure

end ScriptEngine
