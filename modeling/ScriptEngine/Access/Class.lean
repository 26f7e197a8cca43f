import ScriptEngine.Access.Property

/-!
# Members of classes and instances

Own members come first, then inherited ones. Functions that are found by inheritance, and all
properties, are bound to the object. Writing runs the setter of a property, and otherwise gives
the object a member of its own.
-/

namespace ScriptEngine.Script

/-- Reads a member of an object. -/
def getField (call : Invoke) (c : ClassRef) (name : String) : Script Value := do
  let h ← getHeap
  match h.ownMember? name c with
  | some (.property r) => readBound call r (.classObj c)
  | some v => return v
  | none =>
    match h.inherited? c name with
    | some (.function r) => bindFunction r (.classObj c)
    | some (.property r) => readBound call r (.classObj c)
    | some v => return v
    | none => raise (.missingMember name (h.classObject c).name)

/-- Writes a member of an object. -/
def setField (call : Invoke) (c : ClassRef) (name : String) (v : Value) : Script Unit := do
  let h ← getHeap
  match (h.ownMember? name c).or (h.inherited? c name) with
  | some (.property r) => writeBound call r (.classObj c) v
  | _ => modifyHeap (·.setMember c name v)

/-- The host data of a new instance. -/
def construct (args : Array Value) : HostConstructor → Script Payload
  | .counter => do
    match args[0]? with
    | some v => return .counter (← toInt v)
    | none => return .counter 0
  | .label => return .label (← textOf (args.getD 0 .void))
  | .refuse => raise .constructorRefused

/-- A new instance of a class, or of the class of an instance, with the host data that the
constructor of the class gives. -/
def instantiate (construct : ClassRef → HostConstructor → Script Payload) (c : ClassRef) :
    Script Value := do
  let h ← getHeap
  let d := h.definingClass c
  let o := h.classObject d
  unless o.instantiable do raise (.notInstantiable o.name)
  let payload ← o.constructor.mapM (construct d)
  return .classObj (← onHeap (·.newInstance d payload))

/-- A new instance of a class, made with arguments. -/
def createInstance (c : ClassRef) (args : Array Value) : Script Value :=
  instantiate (fun _ => construct args) c

/-- The host data of an object. -/
def payloadOf (v : Value) : Script Payload := do
  match v with
  | .classObj c =>
    let o := (← getHeap).classObject c
    match o.payload with
    | some payload => return payload
    | none => raise (.noHostData o.name)
  | v => raise (.hostObjectExpected v.kind)

/-- The name of an object in the heap, for messages about its host data. -/
def classNameOf (v : Value) : Script String := do
  match v with
  | .classObj c => return ((← getHeap).classObject c).name
  | _ => return ""

/-- The counter that an object carries. -/
def counterOf (v : Value) : Script Int := do
  match ← payloadOf v with
  | .counter n => return n
  | .label _ => raise (.otherHostType (← classNameOf v))

/-- The label that an object carries. -/
def labelOf (v : Value) : Script String := do
  match ← payloadOf v with
  | .label text => return text
  | .counter _ => raise (.otherHostType (← classNameOf v))

/-- Changes the counter that an object carries. -/
def setCounter (v : Value) (n : Int) : Script Unit :=
  match v with
  | .classObj c => modifyHeap (·.modifyClass c ({ · with payload := some (.counter n) }))
  | _ => return ()

/-- Calls a function, or makes an instance of a class. The constructors of classes are the host's,
so an instance is made by a native function. -/
def callValue (call : Invoke) (callee : Value) (args : Array Value) : Script Value := do
  match callee with
  | .function r =>
    let f := (← getHeap).function r
    call f args
  | .classObj c => call { body := .native .make, receiver := .classObj c } args
  | v => raise (.notCallable v.kind)

end ScriptEngine.Script
