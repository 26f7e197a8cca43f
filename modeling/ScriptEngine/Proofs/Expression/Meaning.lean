import ScriptEngine.Machine
import ScriptEngine.Proofs.Expression.Code

/-!
# The meaning of expressions

An evaluator for expression trees: it goes through a tree from left to right, without code and
without registers for intermediate values. Operators, members, names and calls mean what they mean
for the machine, and errors get the place of the operator that raised them.

An expression that can be assigned to is evaluated in two steps. `Expr.refer` evaluates its parts
and says what it refers to; reading, writing or removing that is left to the operator around it.
The value of an expression is what its reference holds.
-/

namespace ScriptEngine

/-! ## Operators -/

namespace Op

/-- Computes on whole numbers of 32 bits. -/
def wholes (op : Int32 → Int32 → Int32) (x y : Value) : Script Value := do
  let m ← Script.ofExcept x.toInt32
  let n ← Script.ofExcept y.toInt32
  return .ofInt (op m n).toInt

/-- Computes on numbers. -/
def reals (op : Number → Number → Number) (x y : Value) : Script Value := do
  let m ← Script.toNumber x
  let n ← Script.toNumber y
  return .number (op m n)

/-- The result of an operator between two values. -/
def combine (op : Op) (x y : Value) : Script Value :=
  match op with
  | .bitAnd => wholes (· &&& ·) x y
  | .bitOr => wholes (· ||| ·) x y
  | .bitXor => wholes (· ^^^ ·) x y
  | .shl => wholes (· <<< ·) x y
  | .shr => wholes (· >>> ·) x y
  | .sub => reals .sub x y
  | .mod => reals .rem x y
  | .div => reals .div x y
  | .mul => reals .mul x y
  | .add =>
    match x with
    | .str s => return .str (s ++ (← Script.textOf y))
    | x => reals .add x y
  | .intDiv => do
    let divisor ← Script.ofExcept y.toInt32
    if divisor = 0 then Script.raise .divisionByZero
    let m ← Script.ofExcept x.toInt32
    return .ofInt (m / divisor).toInt
  | .and => return .ofBool (x.truthy && y.truthy)
  | .or => return .ofBool (x.truthy || y.truthy)
  | .eq => return .ofBool (x.looseEquals y)
  | .notEq => return .ofBool !x.looseEquals y
  | .strictEq => return .ofBool (x.strictEquals y)
  | .strictNotEq => return .ofBool !x.strictEquals y
  | .gt => return .ofBool ((← Script.getHeap).greaterThan x y)
  | .ge => return .ofBool ((← Script.getHeap).greaterOrEqual x y)
  | .lt => return .ofBool ((← Script.getHeap).greaterThan y x)
  | .le => return .ofBool ((← Script.getHeap).greaterOrEqual y x)
  | .instanceOf => do
    let h ← Script.getHeap
    let name := match y with
      | .classObj c => (h.classObject c).name
      | v => h.text v
    return .ofBool (h.isInstanceOf x name)
  | _ => return .void

/-- The result of an operator on one value. -/
def convert (op : Op) (x : Value) : Script Value :=
  match op with
  | .not => return .ofBool !x.truthy
  | .bitNot => return .ofInt (~~~(← Script.ofExcept x.toInt32)).toInt
  | .toInt => return .ofInt (← Script.ofExcept x.toInt32).toInt
  | .toReal | .toNumber => return .number (← Script.toNumber x)
  | .negate => return .number (← Script.toNumber x).neg
  | .toStr => return .str (← Script.textOf x)
  | .char => do
    match Text.charAt? (← Script.textOf x) 0 with
    | some c => return .ofNat c.toNat
    | none => Script.raise .emptyCharacter
  | .strOf => do
    let code := (← Script.ofExcept x.toInt32).toInt
    if 0 ≤ code ∧ code.toNat.isValidChar then return .str (Char.ofNat code.toNat).toString
    else Script.raise (.characterCode code)
  | .typeOf => return .str x.typeName
  | _ => return .void

end Op

/-! ## References -/

/-- What expressions are evaluated in: a frame, how names are resolved at its place, and the
contents of its first two registers. -/
structure Context where
  call : Invoke
  frame : Frame
  names : Names
  /-- The scope in which names are looked up that are not local. -/
  scope : Value
  receiver : Value

/-- What an expression refers to. -/
inductive Reference where
  /-- A value that was computed. -/
  | value (v : Value)
  /-- A local. -/
  | slot (place : Position) (register : Int)
  | member (place : Position) (receiver key : Value)

/-- Writes a local, through its setter if it holds a property. -/
def Frame.assign (call : Invoke) (f : Frame) (register : Int) (v : Value) : Script Unit := do
  match ← f.read register with
  | .property r =>
    let p := (← Script.getHeap).property r
    p.write call v
  | _ => f.write register v

namespace Reference

/-- Reads what is referred to. -/
def get (x : Context) : Reference → Script Value
  | .value v => return v
  | .slot place register => Script.tracing place (x.frame.read register)
  | .member place receiver key => Script.tracing place (Script.getMember x.call receiver key)

/-- Writes what is referred to, for an operator at a place. -/
def set (x : Context) (place : Position) (v : Value) : Reference → Script Unit
  | .value _ => return ()
  | .slot _ register => Script.tracing place (x.frame.assign x.call register v)
  | .member _ receiver key => Script.tracing place (Script.setMember x.call receiver key v)

/-- Removes what is referred to: a local becomes void. -/
def remove (x : Context) (place : Position) : Reference → Script Unit
  | .value _ => return ()
  | .slot _ register => Script.tracing place (x.frame.write register .void)
  | .member _ receiver key => Script.tracing place (Script.removeMember receiver key)

end Reference

/-! ## Evaluation -/

/-- Selects members by their names, one after the other. -/
def selectAll (x : Context) (v : Value) (path : List PathStep) : Script Value :=
  path.foldlM
    (fun v step => Script.tracing step.dot (Script.getMember x.call v (.str step.name))) v

/-- The class to make an instance of: a class itself, or the global class that a string or else
the fallback names. -/
def classOf (target : Value) (fallback : Option String) : Script Value :=
  match target with
  | .classObj c => return .classObj c
  | .str name => Frame.globalClass name
  | v =>
    match fallback with
    | some name => Frame.globalClass name
    | none => Script.raise (.uninstantiableKind v.kind)

/-- Makes an instance of a class, for a `new` at a place. The arguments are evaluated when the
class is known. -/
def create (x : Context) (place : Position) (target : Value) (fallback : Option String)
    (args : Script (List Value)) : Script Value := do
  let c ← Script.tracing place (classOf target fallback)
  let vs ← args
  Script.tracing place (Script.callValue x.call c vs.toArray)

/-- The new value of a step. -/
def StepOp.next (op : StepOp) (old : Value) : Script Value := do
  let n ← Script.ofExcept old.toInt32
  return .ofInt (op.change n).toInt

mutual

/-- Evaluates the parts of an expression, and gives what it refers to. -/
@[simp] def Expr.refer (x : Context) : Expr → Script Reference
  | .number _ n => return .value (.number n)
  | .text _ s => return .value (.str s)
  | .truth _ b => return .value (.ofBool b)
  | .this _ => return .value x.receiver
  | .global _ => do return .value (.scope (← get).globalScope)
  | .name place s =>
    match x.names.slot? s with
    | some register => return .slot place register
    | none => do
      if x.names.linked s then Script.modifyHeap (·.captureUpvalue x.frame.activation s)
      return .member place x.scope (.str s)
  | .paren _ e _ => e.refer x
  | .cast _ word place _ e => do
    let v ← (← e.refer x).get x
    return .value (← Script.tracing place (word.op.convert v))
  | .unary op place e => do
    let v ← (← e.refer x).get x
    return .value (← Script.tracing place (op.op.convert v))
  | .array _ items _ => do
    let vs ← items.values x
    return .value (← Script.newArray vs.toArray)
  | .dict _ entries _ => do
    let vs ← entries.values x
    return .value (← Script.newDict (Frame.pairEntries (← Script.getHeap) vs ∅))
  | .fresh place cls path => do
    let v ← (← cls.refer x).get x
    let target ← selectAll x v path
    return .value (← create x place target (fallback? cls path) (pure []))
  | .freshWith place cls path _ args _ => do
    let v ← (← cls.refer x).get x
    let target ← selectAll x v path
    return .value (← create x place target (fallback? cls path) (args.values x))
  | .binary l op place r => do
    let v ← (← l.refer x).get x
    let w ← (← r.refer x).get x
    return .value (← Script.tracing place (op.op.combine v w))
  | .logic l op _ r => do
    let v ← (← l.refer x).get x
    if v.truthy = op.decisive then return .value (.ofBool op.decisive)
    else
      let w ← (← r.refer x).get x
      return .value (.ofBool w.truthy)
  | .comma l _ r => do
    let _ ← (← l.refer x).get x
    r.refer x
  | .ternary c _ a _ b => do
    let v ← (← c.refer x).get x
    if v.truthy then return .value (← (← a.refer x).get x)
    else return .value (← (← b.refer x).get x)
  | .dot e place _ s => do
    let v ← (← e.refer x).get x
    return .member place v (.str s)
  | .index e opening key _ => do
    let v ← (← e.refer x).get x
    let k ← (← key.refer x).get x
    return .member opening v k
  | .call e _ args closing => do
    let callee ← (← e.refer x).get x
    let vs ← args.values x
    return .value (← Script.tracing closing (Script.callValue x.call callee vs.toArray))
  | .assign target op place e => do
    let ref ← target.refer x
    match op.op? with
    | none =>
      let v ← (← e.refer x).get x
      ref.set x place v
      return .value v
    | some op =>
      let old ← ref.get x
      let w ← (← e.refer x).get x
      let v ← Script.tracing place (op.combine old w)
      ref.set x place v
      return .value v
  | .stepBefore op place target => do
    let ref ← target.refer x
    let v ← Script.tracing place (op.next (← ref.get x))
    ref.set x place v
    return .value v
  | .stepAfter target op place => do
    let ref ← target.refer x
    let old ← ref.get x
    let v ← Script.tracing place (op.next old)
    ref.set x place v
    return .value old
  | .delete place target => do
    let ref ← target.refer x
    ref.remove x place
    return .value .void

/-- The values of items; a missing item is void. -/
@[simp] def Items.values (x : Context) : Items → Script (List Value)
  | .done => return []
  | .last e => do return [← (← e.refer x).get x]
  | .hole _ items => do return .void :: (← items.values x)
  | .more e _ items => do
    let v ← (← e.refer x).get x
    return v :: (← items.values x)

@[simp] def DictKey.value (x : Context) : DictKey → Script Value
  | .label _ s _ => return .str s
  | .computed e _ _ => do (← e.refer x).get x

/-- The keys and values of entries, each key in front of its value. -/
@[simp] def Entries.values (x : Context) : Entries → Script (List Value)
  | .done => return []
  | .last key e => do
    let k ← key.value x
    let v ← (← e.refer x).get x
    return [k, v]
  | .more key e _ entries => do
    let k ← key.value x
    let v ← (← e.refer x).get x
    return k :: v :: (← entries.values x)

end

/-- The value of an expression. -/
def Expr.value (x : Context) (e : Expr) : Script Value := do
  (← e.refer x).get x

/-! ## Values -/

namespace Expr

variable (x : Context)

theorem value_paren (opening : Position) (e : Expr) (closing : Position) :
    (paren opening e closing).value x = e.value x := by
  simp only [value, refer]

theorem value_cast (opening : Position) (word : Conversion) (place closing : Position) (e : Expr) :
    (cast opening word place closing e).value x = (do
      let v ← e.value x
      Script.tracing place (word.op.convert v)) := by
  simp only [value, refer, bind_assoc, pure_bind, Reference.get, bind_pure]

theorem value_unary (op : UnaryOp) (place : Position) (e : Expr) :
    (unary op place e).value x = (do
      let v ← e.value x
      Script.tracing place (op.op.convert v)) := by
  simp only [value, refer, bind_assoc, pure_bind, Reference.get, bind_pure]

theorem value_array (opening : Position) (items : Items) (closing : Position) :
    (array opening items closing).value x = (do
      let vs ← items.values x
      Script.newArray vs.toArray) := by
  simp only [value, refer, bind_assoc, pure_bind, Reference.get, bind_pure]

theorem value_dict (opening : Position) (entries : Entries) (closing : Position) :
    (dict opening entries closing).value x = (do
      let vs ← entries.values x
      Script.newDict (Frame.pairEntries (← Script.getHeap) vs ∅)) := by
  simp only [value, refer, bind_assoc, pure_bind, Reference.get, bind_pure]

theorem value_fresh (place : Position) (cls : Expr) (path : List PathStep) :
    (fresh place cls path).value x = (do
      let v ← cls.value x
      let target ← selectAll x v path
      create x place target (fallback? cls path) (pure [])) := by
  simp only [value, refer, bind_assoc, pure_bind, Reference.get, bind_pure]

theorem value_freshWith (place : Position) (cls : Expr) (path : List PathStep)
    (opening : Position) (args : Items) (closing : Position) :
    (freshWith place cls path opening args closing).value x = (do
      let v ← cls.value x
      let target ← selectAll x v path
      create x place target (fallback? cls path) (args.values x)) := by
  simp only [value, refer, bind_assoc, pure_bind, Reference.get, bind_pure]

theorem value_binary (l : Expr) (op : BinaryOp) (place : Position) (r : Expr) :
    (binary l op place r).value x = (do
      let v ← l.value x
      let w ← r.value x
      Script.tracing place (op.op.combine v w)) := by
  simp only [value, refer, bind_assoc, pure_bind, Reference.get, bind_pure]

theorem value_logic (l : Expr) (op : LogicOp) (place : Position) (r : Expr) :
    (logic l op place r).value x = (do
      let v ← l.value x
      if v.truthy = op.decisive then return .ofBool op.decisive
      else return .ofBool (← r.value x).truthy) := by
  simp only [value, refer, bind_assoc]
  congr 2
  funext ref
  congr 1
  funext v
  split <;> simp only [bind_assoc, pure_bind, Reference.get]

theorem value_comma (l : Expr) (place : Position) (r : Expr) :
    (comma l place r).value x = (do
      let _ ← l.value x
      r.value x) := by
  simp only [value, refer, bind_assoc]

theorem value_ternary (c : Expr) (question : Position) (a : Expr) (colon : Position) (b : Expr) :
    (ternary c question a colon b).value x = (do
      let v ← c.value x
      if v.truthy then a.value x else b.value x) := by
  simp only [value, refer, bind_assoc]
  congr 2
  funext ref
  congr 1
  funext v
  split <;> simp only [bind_assoc, pure_bind, Reference.get, bind_pure]

theorem refer_comma (l : Expr) (place : Position) (r : Expr) :
    (comma l place r).refer x = (do
      let _ ← l.value x
      r.refer x) := by
  simp only [value, refer, bind_assoc]

theorem refer_dot (e : Expr) (place behind : Position) (s : String) :
    (dot e place behind s).refer x = (do
      let v ← e.value x
      return .member place v (.str s)) := by
  simp only [value, refer, bind_assoc]

theorem refer_index (e : Expr) (opening : Position) (key : Expr) (closing : Position) :
    (index e opening key closing).refer x = (do
      let v ← e.value x
      let k ← key.value x
      return .member opening v k) := by
  simp only [value, refer, bind_assoc]

theorem value_call (e : Expr) (opening : Position) (args : Items) (closing : Position) :
    (call e opening args closing).value x = (do
      let callee ← e.value x
      let vs ← args.values x
      Script.tracing closing (Script.callValue x.call callee vs.toArray)) := by
  simp only [value, refer, bind_assoc, pure_bind, Reference.get, bind_pure]

/-- A plain assignment: the target is not read. -/
theorem value_assign (target : Expr) (place : Position) (e : Expr) :
    (assign target .plain place e).value x = (do
      let ref ← target.refer x
      let v ← e.value x
      ref.set x place v
      return v) := by
  simp only [value, refer, AssignOp.op?, bind_assoc, pure_bind, Reference.get]

/-- A compound assignment: the target is read before the right side is evaluated. -/
theorem value_compound (target : Expr) {op : AssignOp} {o : Op} (h : op.op? = some o)
    (place : Position) (e : Expr) :
    (assign target op place e).value x = (do
      let ref ← target.refer x
      let old ← ref.get x
      let w ← e.value x
      let v ← Script.tracing place (o.combine old w)
      ref.set x place v
      return v) := by
  simp only [value, refer, h, bind_assoc, pure_bind, Reference.get]

theorem value_stepBefore (op : StepOp) (place : Position) (target : Expr) :
    (stepBefore op place target).value x = (do
      let ref ← target.refer x
      let old ← ref.get x
      let v ← Script.tracing place (op.next old)
      ref.set x place v
      return v) := by
  simp only [value, refer, bind_assoc, pure_bind, Reference.get]

theorem value_stepAfter (target : Expr) (op : StepOp) (place : Position) :
    (stepAfter target op place).value x = (do
      let ref ← target.refer x
      let old ← ref.get x
      let v ← Script.tracing place (op.next old)
      ref.set x place v
      return old) := by
  simp only [value, refer, bind_assoc, pure_bind, Reference.get]

theorem value_delete (place : Position) (target : Expr) :
    (delete place target).value x = (do
      let ref ← target.refer x
      ref.remove x place
      return .void) := by
  simp only [value, refer, bind_assoc, pure_bind, Reference.get]

end Expr

namespace Items

variable (x : Context)

theorem values_last (e : Expr) : (last e).values x = (do return [← e.value x]) := by
  simp only [Expr.value, values, bind_assoc]

theorem values_more (e : Expr) (comma : Position) (items : Items) :
    (more e comma items).values x = (do
      let v ← e.value x
      return v :: (← items.values x)) := by
  simp only [Expr.value, values, bind_assoc]

end Items

namespace Entries

variable (x : Context)

theorem values_last (key : DictKey) (e : Expr) : (last key e).values x = (do
    let k ← key.value x
    let v ← e.value x
    return [k, v]) := by
  simp only [Expr.value, values, bind_assoc]

theorem values_more (key : DictKey) (e : Expr) (comma : Position) (entries : Entries) :
    (more key e comma entries).values x = (do
      let k ← key.value x
      let v ← e.value x
      return k :: v :: (← entries.values x)) := by
  simp only [Expr.value, values, bind_assoc]

end Entries

end ScriptEngine
