import ScriptEngine.Heap
import ScriptEngine.Json
import ScriptEngine.Number.Text
import ScriptEngine.Text.Printable
import ScriptEngine.Value.Convert

/-!
# Values as text

The text of a value as scripts see it, the text with strings in quotes that tools show, and its
JSON document. Containers are expanded to a depth of ten; below that, one that is not empty is
named by its kind. Comparisons that go by text stand here too.
-/

namespace ScriptEngine

/-- How deeply the text of a value expands containers. -/
def renderDepth : Nat := 10

namespace Heap

/-- The text of a value with room for so many levels of containers. Strings stand in quotes, and
void is spelled out, if `quoted` is set. -/
def render (h : Heap) (quoted : Bool) (room : Nat) (v : Value) : String :=
  match v with
  | .void => if quoted then "void" else ""
  | .undefined => if quoted then "undefined" else ""
  | .number x => x.format
  | .str s => if quoted then Text.quote s else s
  | .array r =>
    let items := h.array r
    if items.isEmpty then "[]"
    else
      match room with
      | 0 => "Array"
      | room + 1 => "[" ++ ",".intercalate (items.toList.map (render h quoted room)) ++ "]"
  | .dict r =>
    let entries := h.dict r
    if entries.isEmpty then "%[]"
    else
      match room with
      | 0 => "Dictionary"
      | room + 1 =>
        let parts := entries.toList.map fun (key, v) =>
          Text.quote key ++ "=>" ++ render h quoted room v
        "%[" ++ ",".intercalate parts ++ "]"
  | .function _ => "(function)"
  | .property _ => "(property)"
  | .scope _ => "(closure)"
  | .classObj r =>
    let c := h.classObject r
    if c.defining.isSome then "(" ++ c.name ++ " instance)" else "(class " ++ c.name ++ ")"

/-- The value as a string of the language. -/
def text (h : Heap) (v : Value) : String :=
  h.render false renderDepth v

/-- The value as tools show it. -/
def inspect (h : Heap) (v : Value) : String :=
  h.render true renderDepth v

/-- The short form of a value in listings of code. -/
def describe (h : Heap) (v : Value) : String :=
  match v with
  | .function _ =>
    match h.chunk? v with
    | some chunk => "<function " ++ chunk.name.getD "anonymous" ++ ">"
    | none => "<native function>"
  | _ => h.inspect v

/-- The JSON document of a value with room for so many levels of containers. Objects that are not
data become strings. -/
def jsonWithin (h : Heap) (room : Nat) (v : Value) : Json :=
  match v, room with
  | .void, _ | .undefined, _ => .null
  | .number x, _ =>
    match x.jsonText? with
    | some written => .number written
    | none => .text x.format
  | .str s, _ => .text s
  | .array r, room + 1 => .array ((h.array r).toList.map (jsonWithin h room))
  | .dict r, room + 1 =>
    .fields ((h.dict r).toList.map fun (key, v) => (key, jsonWithin h room v))
  | v, room => .text (h.render false room v)

/-- The JSON document of a value. -/
def json (h : Heap) (v : Value) : Json :=
  h.jsonWithin renderDepth v

/-! ## Comparison -/

/-- Whether `a > b`. Void is below all that is not void; if one side is a string, the texts
compare by code points. -/
def greaterThan (h : Heap) (a b : Value) : Bool :=
  if a.isVoid then false
  else if b.isVoid then true
  else
    match a, b with
    | .number x, .number y => y.lt x
    | .str _, _ | _, .str _ => h.text b < h.text a
    | _, _ => false

/-- Whether `a ≥ b`. Void is only at least as large as void. -/
def greaterOrEqual (h : Heap) (a b : Value) : Bool :=
  if a.isVoid then b.isVoid
  else if b.isVoid then true
  else
    match a, b with
    | .number x, .number y => y.le x
    | .str _, _ | _, .str _ => h.text b ≤ h.text a
    | _, _ => a.strictEquals b

end Heap

end ScriptEngine
