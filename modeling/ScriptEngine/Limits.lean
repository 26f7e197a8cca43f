import ScriptEngine.Engine
import ScriptEngine.Json.Reader
import ScriptEngine.Number.Reader

/-!
# Limits from JSON

Limits are read from an object, where fields that are missing keep their defaults and unknown
ones are ignored, or from an array with the limits in order, where later ones may be missing. A
limit is a whole number of 64 bits, written without a sign, a point or an exponent. A limit that
is given twice is refused.
-/

namespace ScriptEngine.Limits

/-- The limit that a document denotes. -/
def readLimit? : Json → Option Nat
  | .number written =>
    let ds := written.toList
    if ds.all Char.isDigit && digitsValue ds < UInt64.size then some (digitsValue ds) else none
  | _ => none

/-- Reads the fields of an object. A limit that was read is put in its place. -/
def ofFields? (length depth : Option Nat) : List (String × Json) → Option Limits
  | [] => some
    { maxArrayLength := length.getD (default : Limits).maxArrayLength
      maxCallDepth := depth.getD (default : Limits).maxCallDepth }
  | (key, value) :: entries => do
    let key ← Json.unescape? key.toList
    if key = "max_array_length".toList then
      if length.isSome then none else ofFields? (some (← readLimit? value)) depth entries
    else if key = "max_call_depth".toList then
      if depth.isSome then none else ofFields? length (some (← readLimit? value)) entries
    else ofFields? length depth entries

/-- Reads limits from a document. -/
def ofJson? : Json → Option Limits
  | .object entries => ofFields? none none entries
  | .array [] => some {}
  | .array [length] => do return { maxArrayLength := ← readLimit? length }
  | .array [length, depth] => do
    let length ← readLimit? length
    return { maxArrayLength := length, maxCallDepth := ← readLimit? depth }
  | _ => none

/-- Reads limits from a text. -/
def ofText? (s : String) : Option Limits := do
  ofJson? (← Json.read? s)

/-- The limits as a document. -/
def json (l : Limits) : Json :=
  .fields [("max_array_length", .nat l.maxArrayLength), ("max_call_depth", .nat l.maxCallDepth)]

end ScriptEngine.Limits
