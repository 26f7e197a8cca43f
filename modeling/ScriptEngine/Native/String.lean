import ScriptEngine.Access.Member
import ScriptEngine.Text.Bytes
import ScriptEngine.Text.Case
import ScriptEngine.Text.CharSet
import ScriptEngine.Text.Search

/-!
# Members of strings

Positions and lengths count characters, while the texts are searched and cut by bytes: `indexOf`
looks for a needle among the bytes behind its start, and `format` puts together what is between its
placeholders, which are digits in braces, and the texts of its arguments. A cut that is not between
two characters is a fault.
-/

namespace ScriptEngine

namespace Text

/-- The part of a text between two offsets. -/
def slice (text : String) (start stop : Nat) : Except RuntimeFault String :=
  match extract? text start stop with
  | some part => .ok part
  | none => .error (.offBoundary start stop)

/-- The index of the first character at or behind `start` from which on a needle occurs. -/
def indexOf (text needle : String) (start : Nat) : Except RuntimeFault (Option Nat) := do
  if text.length < start then return none
  let first := byteOffset text.toList start
  let behind ← slice text first (byteSize text.toList)
  match find? (bytes needle.toList) (bytes behind.toList) with
  | none => return none
  | some place => return some (← slice text 0 (first + place)).length

/-! ## Templates -/

/-- A placeholder of a template: the offsets of its first byte and of the byte behind it, and those
of its digits. -/
structure Placeholder where
  start : Nat
  stop : Nat
  digitsStart : Nat
  digitsStop : Nat
  deriving DecidableEq, Inhabited

/-- The digits of the placeholder whose opening brace stands before a text. They may be those of any
script. -/
def placeholder? (cs : List Char) : Option (List Char) :=
  let digits := cs.takeWhile isDecimalDigit
  match digits, cs.drop digits.length with
  | _ :: _, '\x7d' :: _ => some digits
  | _, _ => none

/-- The leftmost placeholders of a text whose first byte is at `offset`. The first `skip` characters
are left out: those belong to a placeholder that starts before them. -/
def findPlaceholders (offset skip : Nat) : List Char → List Placeholder
  | [] => []
  | c :: cs =>
    let behind := offset + c.utf8Size
    match skip with
    | skip + 1 => findPlaceholders behind skip cs
    | 0 =>
      match if c = '\x7b' then placeholder? cs else none with
      | some digits =>
        let digitsStop := behind + byteSize digits
        { start := offset, stop := digitsStop + 1, digitsStart := behind, digitsStop } ::
          findPlaceholders behind (digits.length + 1) cs
      | none => findPlaceholders behind 0 cs

/-- The index that the digits of a placeholder denote, which 64 bits have to hold; only the ASCII
digits have values. -/
def placeholderIndex? (digits : List Char) : Option Nat :=
  if digits.all Char.isDigit ∧ digitsValue digits < UInt64.size then some (digitsValue digits) else none

/-- Goes on with a template that is filled with the texts of arguments: `out` is what came out of it
up to the offset `last`. -/
def fillFrom (template : String) (args : Array String) (out : String) (last : Nat) :
    List Placeholder → Except RuntimeFault String
  | [] => return out ++ (← slice template last (byteSize template.toList))
  | p :: ps => do
    let digits ← slice template p.digitsStart p.digitsStop
    match (placeholderIndex? digits.toList).bind (args[·]?) with
    | none => throw (.formatArgument (← slice template p.start p.stop))
    | some value =>
      let gap ← slice template last p.start
      fillFrom template args (out ++ gap ++ value) p.stop ps

/-- The template with its placeholders replaced, `args` being the texts of the arguments. -/
def format (template : String) (args : Array String) : Except RuntimeFault String :=
  fillFrom template args "" 0 (findPlaceholders 0 0 template.toList)

end Text

namespace Script

/-- The argument at an index; void if there is none. -/
def argument (args : Array Value) (index : Nat) : Value :=
  args.getD index .void

/-- Fails if there are fewer arguments than a member needs. -/
def require (name : String) (args : Array Value) (count : Nat) : Script Unit :=
  if args.size < count then raise (.argumentCount name count args.size) else return ()

/-- The receiver of a member of strings. -/
def stringReceiver (name : String) : Value → Script String
  | .str s => return s
  | _ => raise (.stringsOnly name)

/-- A part of the receiver, by its start and an optional length. -/
def substring (receiver : Value) (args : Array Value) : Script Value := do
  require "substring" args 1
  let cs := (← stringReceiver "substring" receiver).toList
  let start ← toInt (argument args 0)
  if start < 0 ∨ (cs.length : Int) < start then raise (.substringStart start)
  let rest := cs.drop start.toNat
  match args[1]? with
  | none => return .str (String.ofList rest)
  | some v =>
    let length ← toInt v
    if length < 0 ∨ (rest.length : Int) < length then raise (.substringLength length)
    return .str (String.ofList (rest.take length.toNat))

/-- Runs a member of strings. -/
def runString (receiver : Value) (args : Array Value) : StringMember → Script Value
  | .length => return .ofNat (← stringReceiver "length" receiver).length
  | .toString => return .str (← stringReceiver "toString" receiver)
  | .startsWith => do
    require "startsWith" args 1
    let s ← stringReceiver "startsWith" receiver
    let start ← textOf (argument args 0)
    return .ofBool (start.toList.isPrefixOf s.toList)
  | .indexOf => do
    require "indexOf" args 1
    let s ← stringReceiver "indexOf" receiver
    let needle ← textOf (argument args 0)
    let start ← toInt (argument args 1)
    match ← ofExcept (Text.indexOf s needle start.toNat) with
    | some index => return .ofNat index
    | none => return .ofInt (-1)
  | .toLowerCase => return .str (Text.toLowerCase (← stringReceiver "toLowerCase" receiver))
  | .toUpperCase => return .str (Text.toUpperCase (← stringReceiver "toUpperCase" receiver))
  | .substring => substring receiver args
  | .format => do
    let template ← stringReceiver "format" receiver
    let texts ← args.mapM textOf
    return .str (← ofExcept (Text.format template texts))

end Script

end ScriptEngine
