import ScriptEngine.Text.Printable

/-!
# JSON documents

A document keeps its numbers and strings as they are written: the text of a number, and the
characters of a string between its quotes with their escapes. So a document can be read without
deciding what its numbers mean, and written without choosing digits. `Json.text` and
`Json.toText?` go between strings and their written form.
-/

namespace ScriptEngine

/-- A JSON document. Strings and keys are in their written form, escapes included. -/
inductive Json where
  | null
  | bool (b : Bool)
  | number (text : String)
  | string (written : String)
  | array (items : List Json)
  | object (fields : List (String × Json))
  deriving Inhabited

namespace Json

/-! ## Strings -/

/-- How one character of a string is written. -/
def escapeChar (c : Char) : List Char :=
  if c = '"' then ['\\', '"']
  else if c = '\\' then ['\\', '\\']
  else if c = '\x08' then ['\\', 'b']
  else if c = '\t' then ['\\', 't']
  else if c = '\n' then ['\\', 'n']
  else if c = '\x0c' then ['\\', 'f']
  else if c = '\r' then ['\\', 'r']
  else if c.toNat < 0x20 then ['\\', 'u'] ++ Text.hexPadded 4 c.toNat
  else [c]

/-- The written form of a string, without its quotes. -/
def escape (s : String) : String :=
  String.ofList (s.toList.flatMap escapeChar)

/-- The value of a digit in base sixteen. -/
def hexDigit? (c : Char) : Option Nat :=
  if c.isDigit then some (c.toNat - '0'.toNat)
  else if 'a' ≤ c ∧ c ≤ 'f' then some (c.toNat - 'a'.toNat + 10)
  else if 'A' ≤ c ∧ c ≤ 'F' then some (c.toNat - 'A'.toNat + 10)
  else none

/-- The value of four digits in base sixteen. -/
def hexUnit? (a b c d : Char) : Option Nat := do
  return ((← hexDigit? a) * 16 + (← hexDigit? b)) * 256 + ((← hexDigit? c) * 16 + (← hexDigit? d))

/-- The character that a one-letter escape stands for. -/
def shortEscape? (c : Char) : Option Char :=
  if c = '"' ∨ c = '\\' ∨ c = '/' then some c
  else if c = 'b' then some '\x08'
  else if c = 't' then some '\t'
  else if c = 'n' then some '\n'
  else if c = 'f' then some '\x0c'
  else if c = 'r' then some '\r'
  else none

/-- The characters a written string stands for; a surrogate escape needs its partner right
behind it. -/
def unescape? : List Char → Option (List Char)
  | [] => some []
  | '\\' :: 'u' :: a :: b :: c :: d :: '\\' :: 'u' :: e :: f :: g :: h :: cs => do
    let unit ← hexUnit? a b c d
    if 0xD800 ≤ unit ∧ unit < 0xDC00 then
      let low ← hexUnit? e f g h
      if 0xDC00 ≤ low ∧ low < 0xE000 then
        return Char.ofNat (0x10000 + (unit - 0xD800) * 0x400 + (low - 0xDC00)) :: (← unescape? cs)
      else none
    else if 0xDC00 ≤ unit ∧ unit < 0xE000 then none
    else return Char.ofNat unit :: (← unescape? ('\\' :: 'u' :: e :: f :: g :: h :: cs))
  | '\\' :: 'u' :: a :: b :: c :: d :: cs => do
    let unit ← hexUnit? a b c d
    if 0xD800 ≤ unit ∧ unit < 0xE000 then none else return Char.ofNat unit :: (← unescape? cs)
  | '\\' :: c :: cs => do return (← shortEscape? c) :: (← unescape? cs)
  | c :: cs => do return c :: (← unescape? cs)

/-- The document that is a string. -/
def text (s : String) : Json :=
  .string (escape s)

/-- The string that a document is, if it is one. -/
def toText? : Json → Option String
  | .string written => (unescape? written.toList).map String.ofList
  | _ => none

def nat (n : Nat) : Json :=
  .number (toString n)

def int (n : Int) : Json :=
  .number (toString n)

/-- An object with the given keys in the given order. -/
def fields (entries : List (String × Json)) : Json :=
  .object (entries.map fun (key, value) => (escape key, value))

/-- The value of a key of an object: the last one, if the key occurs several times. -/
def get? (j : Json) (key : String) : Option Json :=
  match j with
  | .object entries =>
    (entries.reverse.find? fun (k, _) =>
      (unescape? k.toList).map String.ofList = some key).map (·.2)
  | _ => none

/-- The items of an array. -/
def toItems? : Json → Option (List Json)
  | .array items => some items
  | _ => none

/-! ## Writing -/

mutual

/-- The document without any white space. -/
def compact : Json → String
  | .null => "null"
  | .bool b => if b then "true" else "false"
  | .number written => written
  | .string written => "\"" ++ written ++ "\""
  | .array items => "[" ++ ",".intercalate (compactItems items) ++ "]"
  | .object entries => "\x7b" ++ ",".intercalate (compactFields entries) ++ "\x7d"

def compactItems : List Json → List String
  | [] => []
  | item :: items => item.compact :: compactItems items

def compactFields : List (String × Json) → List String
  | [] => []
  | (key, value) :: entries => ("\"" ++ key ++ "\":" ++ value.compact) :: compactFields entries

end

end Json

end ScriptEngine
