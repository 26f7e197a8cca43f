import ScriptEngine.Json

/-!
# Reading JSON

A reader for whole documents. It checks the form of numbers and of escapes and keeps both as
they are written. Every step consumes a character, so twice the length of the input bounds the
depth of the recursion.
-/

namespace ScriptEngine.Json

/-- The four characters of white space. -/
def isSpace (c : Char) : Bool :=
  c = ' ' || c = '\n' || c = '\t' || c = '\r'

def skipSpace (cs : List Char) : List Char :=
  cs.dropWhile isSpace

/-- Reads the characters of a string up to its closing quote, and gives them in reverse behind
`read`, and the rest. -/
def readString? (read : List Char) : List Char → Option (List Char × List Char)
  | '"' :: cs => some (read, cs)
  | '\\' :: 'u' :: a :: b :: c :: d :: cs =>
    if (hexUnit? a b c d).isSome then
      readString? (d :: c :: b :: a :: 'u' :: '\\' :: read) cs
    else none
  | '\\' :: c :: cs =>
    if (shortEscape? c).isSome then readString? (c :: '\\' :: read) cs else none
  | c :: cs => if c.toNat < 0x20 then none else readString? (c :: read) cs
  | [] => none

/-- Splits the digits off the front of a text; there must be one. -/
def readDigits? (cs : List Char) : Option (List Char × List Char) :=
  let ds := cs.takeWhile Char.isDigit
  if ds.isEmpty then none else some (ds, cs.dropWhile Char.isDigit)

/-- The whole part of a number: a zero, or digits that do not start with one. -/
def readWhole? : List Char → Option (List Char × List Char)
  | '0' :: cs => some (['0'], cs)
  | cs => readDigits? cs

/-- The part of a number behind a point, if there is one. -/
def readFraction? : List Char → Option (List Char × List Char)
  | '.' :: cs => (readDigits? cs).map fun (ds, rest) => ('.' :: ds, rest)
  | cs => some ([], cs)

/-- The exponent of a number, if there is one. -/
def readExponent? : List Char → Option (List Char × List Char)
  | c :: cs =>
    if c = 'e' ∨ c = 'E' then
      match cs with
      | s :: rest =>
        if s = '+' ∨ s = '-' then
          (readDigits? rest).map fun (ds, rest) => (c :: s :: ds, rest)
        else (readDigits? cs).map fun (ds, rest) => (c :: ds, rest)
      | [] => none
    else some ([], c :: cs)
  | [] => some ([], [])

/-- Reads a number: an optional minus, the whole part, a fraction, an exponent. -/
def readNumber? (cs : List Char) : Option (List Char × List Char) := do
  let (sign, cs) := match cs with
    | '-' :: cs => (['-'], cs)
    | cs => ([], cs)
  let (whole, cs) ← readWhole? cs
  let (part, cs) ← readFraction? cs
  let (exp, cs) ← readExponent? cs
  return (sign ++ whole ++ part ++ exp, cs)

/-- What follows a word of the format, if the text starts with it. -/
def readWord? (word : String) (cs : List Char) : Option (List Char) :=
  if word.toList.isPrefixOf cs then some (cs.drop word.length) else none

mutual

/-- Reads one value behind optional white space. -/
def readValue? : Nat → List Char → Option (Json × List Char)
  | 0, _ => none
  | fuel + 1, cs =>
    match skipSpace cs with
    | '"' :: cs =>
      (readString? [] cs).map fun (s, rest) => (.string (String.ofList s.reverse), rest)
    | '[' :: cs =>
      match skipSpace cs with
      | ']' :: rest => some (.array [], rest)
      | cs => (readItems? fuel cs).map fun (items, rest) => (.array items, rest)
    | '\x7b' :: cs =>
      match skipSpace cs with
      | '\x7d' :: rest => some (.object [], rest)
      | cs => (readFields? fuel cs).map fun (entries, rest) => (.object entries, rest)
    | 'n' :: cs => (readWord? "ull" cs).map (.null, ·)
    | 't' :: cs => (readWord? "rue" cs).map (.bool true, ·)
    | 'f' :: cs => (readWord? "alse" cs).map (.bool false, ·)
    | cs => (readNumber? cs).map fun (n, rest) => (.number (String.ofList n), rest)

/-- Reads the values of an array up to its closing bracket; there is at least one. -/
def readItems? : Nat → List Char → Option (List Json × List Char)
  | 0, _ => none
  | fuel + 1, cs => do
    let (item, cs) ← readValue? fuel cs
    match skipSpace cs with
    | ',' :: cs =>
      let (items, cs) ← readItems? fuel cs
      return (item :: items, cs)
    | ']' :: cs => return ([item], cs)
    | _ => none

/-- Reads the entries of an object up to its closing brace; there is at least one. -/
def readFields? : Nat → List Char → Option (List (String × Json) × List Char)
  | 0, _ => none
  | fuel + 1, cs => do
    let '"' :: cs := skipSpace cs | none
    let (key, cs) ← readString? [] cs
    let ':' :: cs := skipSpace cs | none
    let (value, cs) ← readValue? fuel cs
    let entry := (String.ofList key.reverse, value)
    match skipSpace cs with
    | ',' :: cs =>
      let (entries, cs) ← readFields? fuel cs
      return (entry :: entries, cs)
    | '\x7d' :: cs => return ([entry], cs)
    | _ => none

end

/-- Reads a whole text as one document. -/
def read? (s : String) : Option Json := do
  let cs := s.toList
  let (value, rest) ← readValue? (2 * cs.length + 2) cs
  if (skipSpace rest).isEmpty then return value else none

end ScriptEngine.Json
