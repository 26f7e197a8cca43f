import ScriptEngine.Access.Member
import ScriptEngine.Machine.Frame

/-!
# Single instructions

`step` runs one instruction of a frame. Functions are called through the parameter `call`, so
nothing here depends on how long a call takes or whether it ends.
-/

namespace ScriptEngine

/-- How a frame goes on after an instruction. -/
inductive Flow where
  | next
  | jump (target : Nat)
  | leave (v : Value)
  deriving Inhabited

namespace Frame

/-! ## Operators -/

/-- Computes on whole numbers of 32 bits. -/
def intOp (f : Frame) (i : Instruction) (op : Int32 → Int32 → Int32) : Script Unit := do
  let x ← f.int i.b
  let y ← f.int i.c
  f.write i.a (.ofInt (op x y).toInt)

/-- Computes on numbers. -/
def numberOp (f : Frame) (i : Instruction) (op : Number → Number → Number) : Script Unit := do
  let x ← f.number i.b
  let y ← f.number i.c
  f.write i.a (.number (op x y))

/-- Compares two values. -/
def testOp (f : Frame) (i : Instruction) (op : Value → Value → Bool) : Script Unit := do
  let x ← f.read i.b
  let y ← f.read i.c
  f.write i.a (.ofBool (op x y))

/-- Orders two values, of which the second operand is looked at first if `swapped` is set. -/
def orderOp (f : Frame) (i : Instruction) (swapped : Bool) (op : Heap → Value → Value → Bool) :
    Script Unit := do
  let x ← f.read (if swapped then i.c else i.b)
  let y ← f.read (if swapped then i.b else i.c)
  let h ← Script.getHeap
  f.write i.a (.ofBool (op h x y))

/-- Adds numbers; a string on the left takes the text of the right side behind it. -/
def add (f : Frame) (i : Instruction) : Script Unit := do
  let x ← f.read i.b
  let y ← f.read i.c
  match x with
  | .str s => f.write i.a (.str (s ++ (← Script.textOf y)))
  | x =>
    let m ← Script.toNumber x
    let n ← Script.toNumber y
    f.write i.a (.number (m.add n))

/-- Divides whole numbers toward zero. -/
def intDiv (f : Frame) (i : Instruction) : Script Unit := do
  let divisor ← f.int i.c
  if divisor = 0 then Script.raise .divisionByZero
  let x ← f.int i.b
  f.write i.a (.ofInt (x / divisor).toInt)

/-- The code point of the first character of a text. -/
def char (f : Frame) (i : Instruction) : Script Unit := do
  let text ← Script.textOf (← f.read i.b)
  match Text.charAt? text 0 with
  | some c => f.write i.a (.ofNat c.toNat)
  | none => Script.raise .emptyCharacter

/-- The string of the character with a code point. -/
def stringOf (f : Frame) (i : Instruction) : Script Unit := do
  let code := (← f.int i.b).toInt
  if 0 ≤ code ∧ code.toNat.isValidChar then f.write i.a (.str (Char.ofNat code.toNat).toString)
  else Script.raise (.characterCode code)

/-! ## Registers and jumps -/

/-- Copies a register. A property in a local gets the value through its setter; temporaries are
simply overwritten. -/
def copy (call : Invoke) (f : Frame) (dest source : Int) : Script Unit := do
  let v ← f.read source
  if dest < 0 then
    match ← f.read dest with
    | .property r =>
      let p := (← Script.getHeap).property r
      p.write call v
    | _ => f.write dest v
  else f.write dest v

/-- Steps a register and puts the new value into another one too. -/
def stepBefore (f : Frame) (i : Instruction) (op : Int32 → Int32) : Script Unit := do
  let v := Value.ofInt (op (← f.int i.b)).toInt
  f.write i.b v
  unless i.a = i.b do f.write i.a v

/-- Steps a register and puts the old value into another one. -/
def stepAfter (f : Frame) (i : Instruction) (op : Int32 → Int32) : Script Unit := do
  let old ← f.read i.b
  let n ← Script.ofExcept old.toInt32
  f.write i.a old
  f.write i.b (.ofInt (op n).toInt)

/-- A jump to a target, which must not be negative. -/
def jumpTo (target : Int) : Script Flow :=
  if 0 ≤ target then return .jump target.toNat else Script.raise (.jumpTarget target)

/-- A jump that is taken if the truth of a register is as wanted. -/
def jumpIf (f : Frame) (i : Instruction) (wanted : Bool) : Script Flow := do
  if (← f.read i.a).truthy = wanted then jumpTo i.b else return .next

/-! ## Objects -/

/-- The entries of pairs of keys and values; a later entry replaces an earlier one. -/
def pairEntries (h : Heap) : List Value → Dict → Dict
  | key :: v :: items, entries => pairEntries h items (entries.insert (h.text key) v)
  | _, entries => entries

def makeDict (f : Frame) (i : Instruction) : Script Unit := do
  let items ← f.range i.b i.c
  let entries := pairEntries (← Script.getHeap) items.toList ∅
  f.write i.a (← Script.newDict entries)

/-- Makes a function of a template, with the given defaults. -/
def makeFunction (f : Frame) (i : Instruction) : Script Unit := do
  match ← f.read i.a with
  | .function r =>
    let defaults ← f.range i.b i.c
    let e ← get
    let body := (e.heap.function r).body
    f.write i.a (← Script.newFunction { body, scope := some e.globalScope, defaults })
  | _ => Script.raise .templateExpected

/-- Binds a function to the activation. -/
def bindClosure (f : Frame) (i : Instruction) : Script Unit := do
  match ← f.read i.a with
  | .function r =>
    let g := (← Script.getHeap).function r
    f.write i.a (← Script.newFunction { g with scope := some f.activation })
  | _ => Script.raise .functionToBindExpected

/-- The class that a global name stands for. -/
def globalClass (name : String) : Script Value := do
  let e ← get
  match e.heap.lookup? e.globalScope name with
  | some (.classObj c) => return .classObj c
  | _ => Script.raise (.notAClass name)

/-- The class to make an instance of: a class itself, or the global class that a string or else
the constant at `fallback` names. -/
def resolveClass (f : Frame) (target : Value) (fallback : Int) : Script Value := do
  match target with
  | .classObj c => return .classObj c
  | .str name => globalClass name
  | v => if 0 ≤ fallback then globalClass (← f.name fallback) else
    Script.raise (.uninstantiableKind v.kind)

/-- Tests whether a value is an instance of a class or of what a text names. -/
def instanceOf (f : Frame) (i : Instruction) : Script Unit := do
  let target ← f.read i.c
  let h ← Script.getHeap
  let name := match target with
    | .classObj c => (h.classObject c).name
    | v => h.text v
  let v ← f.read i.b
  f.write i.a (.ofBool (h.isInstanceOf v name))

/-! ## Dispatch -/

/-- Runs an instruction that does not jump. -/
def perform (call : Invoke) (f : Frame) (i : Instruction) : Script Unit := do
  match i.op with
  | .bitAnd => f.intOp i (· &&& ·)
  | .bitOr => f.intOp i (· ||| ·)
  | .bitXor => f.intOp i (· ^^^ ·)
  | .shl => f.intOp i (· <<< ·)
  | .shr => f.intOp i (· >>> ·)
  | .sub => f.numberOp i .sub
  | .mod => f.numberOp i .rem
  | .div => f.numberOp i .div
  | .mul => f.numberOp i .mul
  | .add => f.add i
  | .intDiv => f.intDiv i
  | .and =>
    if (← f.read i.b).truthy then f.write i.a (.ofBool (← f.read i.c).truthy)
    else f.write i.a (.ofBool false)
  | .or =>
    if (← f.read i.b).truthy then f.write i.a (.ofBool true)
    else f.write i.a (.ofBool (← f.read i.c).truthy)
  | .eq => f.testOp i Value.looseEquals
  | .notEq => f.testOp i fun x y => !x.looseEquals y
  | .strictEq => f.testOp i Value.strictEquals
  | .strictNotEq => f.testOp i fun x y => !x.strictEquals y
  | .gt => f.orderOp i false Heap.greaterThan
  | .ge => f.orderOp i false Heap.greaterOrEqual
  | .lt => f.orderOp i true Heap.greaterThan
  | .le => f.orderOp i true Heap.greaterOrEqual
  | .not => f.write i.a (.ofBool !(← f.read i.b).truthy)
  | .bitNot => f.write i.a (.ofInt (~~~(← f.int i.b)).toInt)
  | .toInt => f.write i.a (.ofInt (← f.int i.b).toInt)
  | .toReal | .toNumber => f.write i.a (.number (← f.number i.b))
  | .negate => f.write i.a (.number (← f.number i.b).neg)
  | .toStr => f.write i.a (.str (← Script.textOf (← f.read i.b)))
  | .char => f.char i
  | .strOf => f.stringOf i
  | .typeOf => f.write i.a (.str (← f.read i.b).typeName)
  | .dot =>
    let v ← f.read i.b
    let key ← f.read i.c
    f.write i.a (← Script.getMember call v key)
  | .dotSet =>
    let v ← f.read i.a
    let key ← f.read i.b
    Script.setMember call v key (← f.read i.c)
  | .dotSetVoid =>
    let v ← f.read i.a
    Script.setMember call v (← f.read i.b) .void
  | .delete =>
    let v ← f.read i.a
    Script.removeMember v (← f.read i.b)
  | .loadConst => f.write i.a (← f.constantValue i.b)
  | .copy => f.copy call i.a i.b
  | .loadVoid => f.write i.a .void
  | .loadTrue => f.write i.a (.ofBool true)
  | .loadFalse => f.write i.a (.ofBool false)
  | .call =>
    let callee ← f.read i.a
    let args ← f.range i.b i.c
    f.write i.a (← Script.callValue call callee args)
  | .inc => f.stepBefore i (· + 1)
  | .dec => f.stepBefore i (· - 1)
  | .postInc => f.stepAfter i (· + 1)
  | .postDec => f.stepAfter i (· - 1)
  | .makeArray => f.write i.a (← Script.newArray (← f.range i.b i.c))
  | .makeDict => f.makeDict i
  | .makeFunc => f.makeFunction i
  | .bindClosure => f.bindClosure i
  | .newObject => f.write i.a (← f.resolveClass (← f.read i.b) i.c)
  | .instanceOf => f.instanceOf i
  | .loadGlobal => f.write i.a (.scope (← get).globalScope)
  | .registerLocal =>
    let name ← f.name i.b
    let index ← f.slot i.a
    Script.modifyHeap (·.registerLocal f.activation name index)
  | .captureUpvalue =>
    let name ← f.name i.a
    Script.modifyHeap (·.captureUpvalue f.activation name)
  | .nop | .jump | .jumpFalse | .jumpTrue | .ret | .retVoid => return ()

/-- Runs one instruction. -/
def step (call : Invoke) (f : Frame) (i : Instruction) : Script Flow := do
  match i.op with
  | .jump => jumpTo i.a
  | .jumpFalse => f.jumpIf i false
  | .jumpTrue => f.jumpIf i true
  | .ret => return .leave (← f.read i.a)
  | .retVoid => return .leave .void
  | _ =>
    f.perform call i
    return .next

end Frame

end ScriptEngine
