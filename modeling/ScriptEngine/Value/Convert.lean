import ScriptEngine.Number.Reader
import ScriptEngine.Number.Text
import ScriptEngine.Text.CharSet
import ScriptEngine.Value

/-!
# Conversions and comparison of values

Conversions to truth values and numbers, and the two equalities. None of them looks into the
heap: references compare by identity.
-/

namespace ScriptEngine.Value

/-- The truth of a value. Numbers within `epsilon` of zero are false, and so are the empty string
and the string `false`. -/
def truthy : Value → Bool
  | .void | .undefined => false
  | .number x => Number.epsilon.lt x.abs
  | .str s => s ≠ "" && s ≠ "false"
  | _ => true

/-- The value as a number. Void is zero, and so is a string that is not the text of a number;
objects have no number. -/
def toNumber : Value → Except RuntimeFault Number
  | .void | .undefined => .ok .zero
  | .number x => .ok x
  | .str s => .ok ((Number.read? (Text.trim s.toList)).getD .zero)
  | v => .error (.notANumber v.kind)

/-- The whole part of the value as a number, in 32 bits. -/
def toInt32 (v : Value) : Except RuntimeFault Int32 :=
  v.toNumber.map Number.toInt32

/-- Equality without conversion: numbers within `epsilon`, strings by text, objects by
identity. -/
def strictEquals : Value → Value → Bool
  | .number x, .number y => x.close y
  | a, b => a = b

/-- Whether a value is a number close to zero or the empty string. -/
def isNull : Value → Bool
  | .number x => x.abs.lt Number.epsilon
  | .str s => s = ""
  | _ => false

/-- Equality with conversion: void equals what is zero or empty, and a number equals its text. -/
def looseEquals (a b : Value) : Bool :=
  a.strictEquals b ||
    match a, b with
    | .number x, .str s | .str s, .number x => x.format = s
    | a, b =>
      if a.isVoid && b.isVoid then true
      else if a.isVoid then b.isNull
      else if b.isVoid then a.isNull
      else false

end ScriptEngine.Value
