import ScriptEngine.Instruction
import ScriptEngine.Value

/-!
# Chunks of code

A chunk is the code of a script or of one function, with the constants it uses. Functions that
the code makes are constants that hold the chunk of the function.

A chunk records how many registers its frames need: `tempCount` is one past the highest register
that an emitted instruction names (and at least 3), `localFloor` the lowest one (and at most 0).
Both are integers without a bound, as the operands of instructions are: chunks of more than `2 ^ 31`
instructions, constants or registers are out of scope.
-/

namespace ScriptEngine

mutual

/-- The code of a script or a function. -/
structure Chunk where
  /-- The name of the function, if it has one. -/
  name : Option String
  code : Array Instruction
  constants : Array Constant
  /-- One past the highest register in use. -/
  tempCount : Int
  /-- The lowest register in use. -/
  localFloor : Int
  /-- The number of parameters, which are in the registers -1, -2, ... -/
  paramCount : Nat

/-- A constant: a value, or the code of a function to be made. -/
inductive Constant where
  | value (v : Value)
  | template (chunk : Chunk)

end

instance : Inhabited Constant := ⟨.value .void⟩

namespace Chunk

/-- A chunk without code. -/
def empty (name : Option String) : Chunk :=
  { name, code := #[], constants := #[], tempCount := 3, localFloor := 0, paramCount := 0 }

instance : Inhabited Chunk := ⟨empty none⟩

/-- The number of registers between the two ends. -/
def frameSize (c : Chunk) : Nat :=
  (c.tempCount - c.localFloor).toNat

/-- Whether two constants are the same string, or numbers with the same bits. -/
def interns : Constant → Constant → Bool
  | .value (.str a), .value (.str b) => a = b
  | .value (.number a), .value (.number b) => a = b
  | _, _ => false

/-- The chunk with a constant, and the index of that constant. Strings and numbers are stored
once; everything else is appended. -/
def addConstant (c : Chunk) (k : Constant) : Chunk × Nat :=
  match c.constants.findIdx? (interns · k) with
  | some i => (c, i)
  | none => ({ c with constants := c.constants.push k }, c.constants.size)

/-- Makes sure that a register is inside the frame. -/
def reserve (c : Chunk) (register : Int) : Chunk :=
  { c with tempCount := max c.tempCount (register + 1) }

/-- Appends an instruction and keeps the ends of the frame around its registers. -/
def emit (c : Chunk) (i : Instruction) : Chunk :=
  { c with
    code := c.code.push i
    tempCount := match i.maxRegister? with
      | some r => max c.tempCount (r + 1)
      | none => c.tempCount
    localFloor := match i.minRegister? with
      | some r => min c.localFloor r
      | none => c.localFloor }

/-- Changes the instruction at an index. -/
def modifyAt (c : Chunk) (index : Nat) (f : Instruction → Instruction) : Chunk :=
  { c with code := c.code.modify index f }

/-- Points the jump at an index to a target. -/
def patchJump (c : Chunk) (index target : Nat) : Chunk :=
  c.modifyAt index fun i =>
    match i.op with
    | .jump => { i with a := target }
    | .jumpFalse | .jumpTrue => { i with b := target }
    | _ => i

end Chunk

end ScriptEngine
