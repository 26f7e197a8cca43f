import ScriptEngine.Access.Class
import ScriptEngine.Compile

/-!
# Functions of the host

The functions that a host can install. Some of them call back into the engine: they run scripts,
call other functions, or stand for a method whose receiver they pass on.
-/

namespace ScriptEngine.Script

/-- Compiles a script and calls it in a scope. -/
def evalIn (call : Invoke) (source : String) (scope : ScopeRef) : Script Value :=
  match compile source with
  | .ok chunk => call { body := .script chunk, scope := some scope } #[]
  | .error failure => throw failure

/-- Compiles a script and calls it in the global scope. -/
def eval (call : Invoke) (source : String) : Script Value := do
  evalIn call source (← get).globalScope

/-- The function that a value is, if it is one. -/
def functionOf? (v : Value) : Script (Option Function) := do
  match v with
  | .function r => return some ((← getHeap).function r)
  | _ => return none

/-- Runs a function of the host. -/
def runHost (call : Invoke) (receiver : Value) (args : Array Value) :
    HostFunction → Script Value
  | .arguments => newArray args
  | .receiver => return receiver
  | .nothing => return .void
  | .refuse => raise .hostRefused
  | .twice => do
    let x ← toNumber (args.getD 0 .void)
    return .number (x.mul (.ofNat 2))
  | .depth => return .ofNat (← get).depth
  | .eval => do eval call (← textOf (args.getD 0 .void))
  | .apply =>
    match args.toList with
    | [] => return .void
    | callee :: rest => callValue call callee rest.toArray
  | .property => do
    let getter ← functionOf? (args.getD 0 .void)
    let setter ← functionOf? (args.getD 1 .void)
    newProperty { getter, setter }
  | .increment => do
    let n ← match args[0]? with
      | some v => toInt v
      | none => pure 1
    setCounter receiver ((← counterOf receiver) + n)
    return .void
  | .count => return .ofInt (← counterOf receiver)
  | .label => return .str (← labelOf receiver)
  | .method target => do
    let f := (← getHeap).function target
    call { f with receiver } args
  | .setCount => do
    let _ ← counterOf receiver
    setCounter receiver (← toInt (args.getD 0 .void))
    return .void
  | .doubledCount => return .ofInt (2 * (← counterOf receiver))

end ScriptEngine.Script
