import ScriptEngine.Heap.Class
import ScriptEngine.Heap.Scope
import ScriptEngine.Value.Render

/-!
# The engine

An engine is a heap with a global scope, the four classes that give primitive values their
members, the classes that a host registered, the number of frames on the stack, and the lines
that scripts logged. A `Script` computation runs on an engine; if it fails, the engine keeps what
was done before.
-/

namespace ScriptEngine

/-- The limits of an engine. -/
structure Limits where
  /-- Writes beyond this many items fail instead of growing an array. -/
  maxArrayLength : Nat := 100000
  /-- The number of frames that can be on the stack. -/
  maxCallDepth : Nat := 200
  deriving DecidableEq, Inhabited

/-- The state that scripts run on. -/
structure Engine where
  limits : Limits
  heap : Heap
  globalScope : ScopeRef
  numberClass : ClassRef
  stringClass : ClassRef
  arrayClass : ClassRef
  dictClass : ClassRef
  /-- The number of frames on the stack. -/
  depth : Nat := 0
  /-- The classes that the host registered. -/
  registered : Std.HashMap String ClassRef := ∅
  /-- What scripts logged, oldest first. -/
  log : Array String := #[]

/-- A computation on an engine. -/
abbrev Script := EStateM Failure Engine

/-- How functions are called. The parts of the engine that call functions take this as a
parameter. -/
abbrev Invoke := Function → Array Value → Script Value

namespace Script

def raise {α : Type} (cause : RuntimeFault) : Script α :=
  throw (.runtime cause)

def ofExcept {α : Type} : Except RuntimeFault α → Script α
  | .ok a => return a
  | .error cause => raise cause

def getHeap : Script Heap :=
  return (← get).heap

def modifyHeap (f : Heap → Heap) : Script Unit :=
  modify fun e => { e with heap := f e.heap }

/-- Runs an operation on the heap that also gives a result. -/
def onHeap {α : Type} (f : Heap → α × Heap) : Script α :=
  modifyGet fun e =>
    let (a, heap) := f e.heap
    (a, { e with heap })

/-- Runs a computation and changes the engine afterwards, whether it failed or not. -/
def andThen {α : Type} (x : Script α) (f : Engine → Engine) : Script α := fun e =>
  match x e with
  | .ok a e => .ok a (f e)
  | .error failure e => .error failure (f e)

/-- Runs a computation for a place in a source: an error that leaves it gets the place into its
trace. -/
def tracing {α : Type} (place : Position) (x : Script α) : Script α := fun e =>
  match x e with
  | .ok a e => .ok a e
  | .error (.error err) e => .error (.error (err.unwind place)) e
  | .error .exhausted e => .error .exhausted e

/-! ## New objects -/

def newArray (items : Array Value) : Script Value :=
  return .array (← onHeap (·.newArray items))

def newDict (entries : Dict) : Script Value :=
  return .dict (← onHeap (·.newDict entries))

def newFunction (f : Function) : Script Value :=
  return .function (← onHeap (·.newFunction f))

def newProperty (p : Property) : Script Value :=
  return .property (← onHeap (·.newProperty p))

/-! ## Conversions -/

def toNumber (v : Value) : Script Number :=
  ofExcept v.toNumber

def toInt (v : Value) : Script Int :=
  return (← ofExcept v.toInt32).toInt

/-- The text of a value. -/
def textOf (v : Value) : Script String :=
  return (← getHeap).text v

end Script

end ScriptEngine
