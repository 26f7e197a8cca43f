import ScriptEngine.Fault
import ScriptEngine.Number

/-!
# Values

Numbers and strings are values in themselves. Everything else is a reference into the heap, so
that two references are the same object exactly when they are equal.
-/

namespace ScriptEngine

/-- A reference to an array. -/
structure ArrayRef where
  index : Nat
  deriving DecidableEq, Inhabited

/-- A reference to a dictionary. -/
structure DictRef where
  index : Nat
  deriving DecidableEq, Inhabited

/-- A reference to a function. -/
structure FunctionRef where
  index : Nat
  deriving DecidableEq, Inhabited

/-- A reference to a property. -/
structure PropertyRef where
  index : Nat
  deriving DecidableEq, Inhabited

/-- A reference to a scope. -/
structure ScopeRef where
  index : Nat
  deriving DecidableEq, Inhabited

/-- A reference to a class or to an instance of one. -/
structure ClassRef where
  index : Nat
  deriving DecidableEq, Inhabited

/-- A value of the language. -/
inductive Value where
  | void
  | undefined
  | number (x : Number)
  | str (s : String)
  | array (ref : ArrayRef)
  | dict (ref : DictRef)
  | function (ref : FunctionRef)
  | property (ref : PropertyRef)
  | scope (ref : ScopeRef)
  | classObj (ref : ClassRef)
  deriving DecidableEq

namespace Value

instance : Inhabited Value := ⟨.void⟩

def ofInt (n : Int) : Value := .number (.ofInt n)
def ofNat (n : Nat) : Value := .number (.ofNat n)

/-- Truth values are the numbers one and zero. -/
def ofBool (b : Bool) : Value := .number (if b then .one else .zero)

def kind : Value → ValueKind
  | .void => .void
  | .undefined => .undefined
  | .number _ => .number
  | .str _ => .string
  | .array _ => .array
  | .dict _ => .dictionary
  | .function _ => .function
  | .property _ => .property
  | .scope _ => .closure
  | .classObj _ => .classObject

/-- The result of the `typeof` operator: all references count as objects. -/
def typeName : Value → String
  | .void => "void"
  | .undefined => "undefined"
  | .number _ => "number"
  | .str _ => "string"
  | _ => "object"

/-- Void and undefined both count as void. -/
def isVoid : Value → Bool
  | .void | .undefined => true
  | _ => false

/-- Whether a value is a reference into the heap. -/
def isObject : Value → Bool
  | .void | .undefined | .number _ | .str _ => false
  | _ => true

end Value

end ScriptEngine
