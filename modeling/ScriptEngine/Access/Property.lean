import ScriptEngine.Engine

/-!
# Reading and writing through properties

A property runs its getter or setter. A property that belongs to an object runs them with that
object as the receiver.
-/

namespace ScriptEngine

namespace Property

/-- The property with its functions bound to a receiver. -/
def bind (p : Property) (receiver : Value) : Property where
  getter := p.getter.map ({ · with receiver })
  setter := p.setter.map ({ · with receiver })

def read (call : Invoke) (p : Property) : Script Value :=
  match p.getter with
  | some f => call f #[]
  | none => Script.raise .noGetter

def write (call : Invoke) (p : Property) (v : Value) : Script Unit :=
  match p.setter with
  | some f => discard (call f #[v])
  | none => Script.raise .noSetter

end Property

namespace Script

/-- The value itself, or what its getter gives if it is a property. -/
def readThrough (call : Invoke) : Value → Script Value
  | .property r => do
    let p := (← getHeap).property r
    p.read call
  | v => return v

/-- Reads a property as a member of a receiver. -/
def readBound (call : Invoke) (r : PropertyRef) (receiver : Value) : Script Value := do
  let p := (← getHeap).property r
  (p.bind receiver).read call

/-- Writes a property as a member of a receiver. -/
def writeBound (call : Invoke) (r : PropertyRef) (receiver v : Value) : Script Unit := do
  let p := (← getHeap).property r
  (p.bind receiver).write call v

/-- A function with another receiver. -/
def bindFunction (r : FunctionRef) (receiver : Value) : Script Value := do
  let f := (← getHeap).function r
  newFunction { f with receiver }

end Script

end ScriptEngine
