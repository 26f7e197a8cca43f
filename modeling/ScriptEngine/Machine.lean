import ScriptEngine.Machine.Step
import ScriptEngine.Native.Run

/-!
# Running code

`execute` runs a chunk in a new frame: it makes a window and an activation, places the receiver
and the arguments, and runs instructions until one leaves the frame or the code ends. An error
that leaves a frame gets the position of the frame's instruction into its trace. A frame is
refused when the stack is full; one that was entered is always left again.

Calls nest and code can loop, so runs are bounded by fuel: `host.call n` bounds both the depth of
nested calls and the number of instructions of each frame by `n`.
-/

namespace ScriptEngine

namespace Frame

/-- Runs instructions from an index on. Running past the end gives void. -/
def run (call : Invoke) (f : Frame) : Nat → (pc : Nat) → Script Value
  | 0, _ => throw .exhausted
  | fuel + 1, pc => do
    match f.chunk.code[pc]? with
    | none => return .void
    | some i =>
      match ← Script.tracing i.position (f.step call i) with
      | .next => run call f fuel (pc + 1)
      | .jump target => run call f fuel target
      | .leave v => return v

end Frame

/-- The index of register 0 in the windows of a chunk. -/
def Chunk.base (c : Chunk) : Nat :=
  c.localFloor.natAbs

/-- The size of the windows of a chunk: at least the first three registers are there. -/
def Chunk.windowSize (c : Chunk) : Nat :=
  max c.frameSize (c.base + 3)

/-- Puts arguments into the registers -1, -2, ... of a window whose register 0 is at `base`. -/
def placeArguments (window : Array Value) (base : Nat) : List Value → Array Value
  | [] => window
  | v :: args =>
    match base with
    | 0 => window
    | slot + 1 => placeArguments (window.setIfInBounds slot v) slot args

/-- The window that a frame of a chunk starts with, apart from the activation in register 0. -/
def Chunk.initialWindow (c : Chunk) (receiver : Value) (args : Array Value) : Array Value :=
  let window := (Array.replicate c.windowSize .void).setIfInBounds (c.base + 1) receiver
  placeArguments window c.base (args.toList.take c.paramCount)

/-- Makes the frame of a chunk in a scope. -/
def newFrame (c : Chunk) (scope : ScopeRef) (receiver : Value) (args : Array Value) :
    Script Frame := do
  let window ← Script.onHeap (·.newWindow (c.initialWindow receiver args))
  let activation ← Script.onHeap (·.newScope (.activation scope window ∅ ∅))
  Script.modifyHeap (·.setCell ⟨window, c.base⟩ (.scope activation))
  return { chunk := c, window, activation, base := c.base }

/-- Counts a frame onto the stack, if there is room. -/
def enterFrame : Script Unit := do
  let e ← get
  if e.limits.maxCallDepth ≤ e.depth then Script.raise .callDepth
  set { e with depth := e.depth + 1 }

/-- Runs a chunk in a new frame. -/
def execute (call : Invoke) (fuel : Nat) (c : Chunk) (scope : ScopeRef) (receiver : Value)
    (args : Array Value) : Script Value := do
  enterFrame
  let body : Script Value := do
    let f ← newFrame c scope receiver args
    (f.run call fuel 0).andThen fun e =>
      { e with heap := e.heap.setCell ⟨f.window, f.base⟩ .void }
  body.andThen fun e => { e with depth := e.depth - 1 }

/-- The values of the parameters of a function: its arguments, where missing its defaults, where
missing void. -/
def Function.parameters (f : Function) (count : Nat) (args : Array Value) : Array Value :=
  ((List.range count).map fun i => (args[i]?.or f.defaults[i]?).getD .void).toArray

/-- Calls a function on an engine of a host, with nested calls and loops bounded by the fuel. -/
def Host.call (host : Host) : Nat → Invoke
  | 0 => fun _ _ => throw .exhausted
  | fuel + 1 => fun f args => do
    match f.body with
    | .native n => host.native (host.call fuel) f.receiver args n
    | .script chunk =>
      let scope := f.scope.getD (← get).globalScope
      execute (host.call fuel) fuel chunk scope f.receiver (f.parameters chunk.paramCount args)

/-- Calls a function on an engine of the standard host. -/
def callWithin : Nat → Invoke :=
  Host.standard.call

end ScriptEngine
