import ScriptEngine.Native.Array
import ScriptEngine.Native.Host

/-!
# Running native functions

What native functions do depends on the host, which adds functions and the constructors of its
classes to those that the engine has. `Host.standard` is the host whose functions and constructors
are listed with the native functions.
-/

namespace ScriptEngine

/-- What a host adds to the engine. All of it may call back into the engine. -/
structure Host where
  /-- Runs a function of the host on a receiver and arguments. -/
  run : HostFunction → Invoke → Value → Array Value → Script Value
  /-- Makes the host data of a new instance of a class. -/
  construct : ClassRef → HostConstructor → Invoke → Array Value → Script Payload

/-- All that a host adds to the engine is of one kind. -/
structure Host.All (host : Host) (P : ∀ {α : Type}, (Invoke → Script α) → Prop) : Prop where
  run : ∀ which receiver args, P fun call => host.run which call receiver args
  construct : ∀ c made args, P fun call => host.construct c made call args

/-- The host with the functions and constructors that are listed. -/
def Host.standard : Host where
  run which call receiver args := Script.runHost call receiver args which
  construct _ made _ args := Script.construct args made

/-- Runs a native function on a receiver and arguments. -/
def Host.native (host : Host) (call : Invoke) (receiver : Value) (args : Array Value) :
    Native → Script Value
  | .log => do
    let line := ",".intercalate (← args.toList.mapM Script.textOf)
    modify fun e => { e with log := e.log.push line }
    return .void
  | .numberToString => return .str (← Script.textOf receiver)
  | .string which => Script.runString receiver args which
  | .array which => Script.runArray receiver args which
  | .make =>
    match receiver with
    | .classObj c => Script.instantiate (fun d made => host.construct d made call args) c
    | v => Script.raise (.notCallable v.kind)
  | .host which => host.run which call receiver args

end ScriptEngine
