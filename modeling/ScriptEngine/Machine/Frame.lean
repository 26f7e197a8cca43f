import ScriptEngine.Engine

/-!
# Frames

A frame runs one chunk on a register window of its own. Register 0 is at index `base` of the
window, so that registers below zero come before it.
-/

namespace ScriptEngine

/-- The activation of a chunk. -/
structure Frame where
  chunk : Chunk
  window : WindowRef
  /-- The scope of the activation. -/
  activation : ScopeRef
  /-- The index of register 0 in the window. -/
  base : Nat
  deriving Inhabited

namespace Frame

/-- The index of a register in the window. -/
def slot (f : Frame) (r : Int) : Script Nat := do
  let index := (f.base : Int) + r
  if 0 ≤ index ∧ index < ((← Script.getHeap).window f.window).size then return index.toNat
  else Script.raise (.registerOutside r)

/-- The content of a register. -/
def read (f : Frame) (r : Int) : Script Value := do
  let index := (f.base : Int) + r
  if index < 0 then Script.raise (.registerOutside r)
  else
    match (← Script.getHeap).cell? ⟨f.window, index.toNat⟩ with
    | some v => return v
    | none => Script.raise (.registerOutside r)

/-- Writes a register. -/
def write (f : Frame) (r : Int) (v : Value) : Script Unit := do
  let index ← f.slot r
  Script.modifyHeap (·.setCell ⟨f.window, index⟩ v)

/-- The content of a register as a number. -/
def number (f : Frame) (r : Int) : Script Number := do
  Script.toNumber (← f.read r)

/-- The content of a register as a whole number of 32 bits. -/
def int (f : Frame) (r : Int) : Script Int32 := do
  Script.ofExcept (← f.read r).toInt32

/-- The contents of `count` registers from `first` on, behind those in `before`. -/
def rangeFrom (f : Frame) (before : Array Value) (first : Int) : Nat → Script (Array Value)
  | 0 => return before
  | count + 1 => do
    let v ← f.read first
    rangeFrom f (before.push v) (first + 1) count

/-- The contents of the registers from `first` up to but not including `behind`. -/
def range (f : Frame) (first behind : Int) : Script (Array Value) :=
  f.rangeFrom #[] first (behind - first).toNat

/-- A constant of the chunk. -/
def constant (f : Frame) (k : Int) : Script Constant :=
  match if 0 ≤ k then f.chunk.constants[k.toNat]? else none with
  | some found => return found
  | none => Script.raise (.constantOutside k)

/-- The value of a constant. Code becomes a function that is bound to nothing. -/
def constantValue (f : Frame) (k : Int) : Script Value := do
  match ← f.constant k with
  | .value v => return v
  | .template chunk => Script.newFunction { body := .script chunk }

/-- A constant that must be a name. -/
def name (f : Frame) (k : Int) : Script String := do
  match ← f.constant k with
  | .value (.str s) => return s
  | .value v => Script.raise (.nameExpected v.kind)
  | .template _ => Script.raise (.nameExpected .function)

end Frame

end ScriptEngine
