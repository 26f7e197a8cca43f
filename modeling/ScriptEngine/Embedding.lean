import ScriptEngine.Engine.Install
import ScriptEngine.Machine

/-!
# Embedding the engine

What a host does with an engine: run scripts, call values, read and write globals and members,
make scopes, and define classes of its own. Runs are bounded by fuel, which the host chooses.
-/

namespace ScriptEngine

/-- A class that a host defines. -/
structure HostClass where
  name : String
  /-- What makes the host data of new instances; without it they carry none. -/
  constructor : Option HostConstructor := none
  parents : List ClassRef := []
  /-- The fields that each instance starts with. -/
  fields : List (String × Value) := []
  /-- The members that all instances share; a later one replaces an earlier one. -/
  members : List (String × Value) := []

namespace Engine

/-! ## Runs -/

/-- Compiles a script and runs it in the global scope. -/
def eval (fuel : Nat) (source : String) : Script Value :=
  Script.eval (callWithin fuel) source

/-- Compiles a script and runs it in a scope. Names that the scope does not bind are global. -/
def evalIn (fuel : Nat) (source : String) (scope : ScopeRef) : Script Value :=
  Script.evalIn (callWithin fuel) source scope

/-- Calls a function, or makes an instance of a class. -/
def call (fuel : Nat) (callee : Value) (args : Array Value) : Script Value :=
  Script.callValue (callWithin fuel) callee args

/-- Runs a chunk in the global scope. -/
def runChunk (fuel : Nat) (c : Chunk) (receiver : Value) (args : Array Value) : Script Value := do
  execute (callWithin fuel) fuel c (← get).globalScope receiver args

/-! ## Scopes -/

/-- The value of a global; a property is not read through. -/
def getGlobal? (name : String) : Script (Option Value) := do
  let e ← get
  return e.heap.lookup? e.globalScope name

/-- A new scope inside another one, or on its own. -/
def newScope (parent : Option ScopeRef) : Script ScopeRef :=
  Script.onHeap (·.newScope (.named parent ∅))

/-! ## Classes -/

/-- A native function of the host. -/
def hostFunction (f : HostFunction) : Script Value :=
  Script.newFunction { body := .native (.host f) }

/-- A member that reads and writes the counter of an instance. -/
def counterProperty : Script Value :=
  Script.newProperty
    { getter := some { body := .native (.host .count) }
      setter := some { body := .native (.host .setCount) } }

/-- A member that reads twice the counter of an instance. -/
def doubledProperty : Script Value :=
  Script.newProperty { getter := some { body := .native (.host .doubledCount) }, setter := none }

/-- Makes a class, which is not registered. -/
def newClass (c : HostClass) (instantiable : Bool) : Script ClassRef :=
  Script.onHeap (·.newClass
    { name := c.name, parents := c.parents, instantiable
      defaults := c.fields.foldl (fun m (name, v) => m.insert name v) ∅
      members := c.members.foldl (fun m (name, v) => m.insert name v) ∅
      constructor := c.constructor })

/-- Makes a class, registers it and binds it globally under its name. -/
def registerClass (c : HostClass) : Script ClassRef := do
  let r ← newClass c true
  Script.setGlobal c.name (.classObj r)
  modify fun e => { e with registered := e.registered.insert c.name r }
  return r

/-- A registered class. -/
def class? (name : String) : Script (Option ClassRef) := do
  return (← get).registered[name]?

/-- An instance of a registered class around host data, without its constructor. -/
def wrap (name : String) (payload : Payload) : Script Value := do
  match ← class? name with
  | none => Script.raise (.notRegistered name)
  | some c =>
    let d := (← Script.getHeap).definingClass c
    return .classObj (← Script.onHeap (·.newInstance d (some payload)))

end Engine

end ScriptEngine
