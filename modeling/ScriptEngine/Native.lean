import ScriptEngine.Value

/-!
# Native functions

The functions that are not written in the language: the members of numbers, strings and arrays,
the function `log`, what makes the instances of classes, and the functions that a host can install.
They are named here; what they do is said where they run.
-/

namespace ScriptEngine

/-- The members of strings. -/
inductive StringMember where
  | length
  | toString
  | startsWith
  | indexOf
  | toLowerCase
  | toUpperCase
  | substring
  | format
  deriving DecidableEq, Inhabited

/-- The members of arrays. -/
inductive ArrayMember where
  | length
  | setLength
  | add
  | insert
  | erase
  | remove
  | find
  | clear
  | reverse
  | sort
  | join
  | split
  | assign
  | assignStruct
  deriving DecidableEq, Inhabited

/-- The functions that a host can install. -/
inductive HostFunction where
  /-- Gives an array of its arguments. -/
  | arguments
  /-- Gives its receiver. -/
  | receiver
  /-- Gives void. -/
  | nothing
  /-- Fails. -/
  | refuse
  /-- Doubles its argument. -/
  | twice
  /-- Gives the number of frames on the stack. -/
  | depth
  /-- Runs its argument as a script. -/
  | eval
  /-- Calls its first argument with the others. -/
  | apply
  /-- Makes a property of a getter and a setter. -/
  | property
  /-- Adds its argument to the counter of its receiver. -/
  | increment
  /-- Gives the counter of its receiver. -/
  | count
  /-- Gives the label of its receiver. -/
  | label
  /-- Calls another function with its own receiver. -/
  | method (target : FunctionRef)
  /-- Sets the counter of its receiver. -/
  | setCount
  /-- Gives twice the counter of its receiver. -/
  | doubledCount
  deriving DecidableEq, Inhabited

/-- A function that is not written in the language. -/
inductive Native where
  | log
  | numberToString
  | string (which : StringMember)
  | array (which : ArrayMember)
  /-- Makes an instance of the class that is its receiver. -/
  | make
  | host (which : HostFunction)
  deriving DecidableEq, Inhabited

/-- What makes the host data of a new instance. -/
inductive HostConstructor where
  /-- A counter that starts at the first argument. -/
  | counter
  /-- A label with the text of the first argument. -/
  | label
  /-- Always fails. -/
  | refuse
  deriving DecidableEq, Inhabited

/-- The host data of an instance. -/
inductive Payload where
  | counter (n : Int)
  | label (text : String)
  deriving DecidableEq, Inhabited

end ScriptEngine
