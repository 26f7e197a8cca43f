import ScriptEngine.Chunk
import ScriptEngine.Native
import Std.Data.HashMap
import Std.Data.TreeMap

/-!
# The heap

The heap stores what references stand for, one store for each kind of object, and the register
windows of activations. Objects are never moved or dropped, so a reference is an index, and an
object that refers to others when it is made refers to smaller indices.

Windows have no value of their own: an activation refers to its window, and so do the scopes that
captured one of its cells.
-/

namespace ScriptEngine

/-- The entries of a dictionary, in the order of their keys. -/
abbrev Dict := Std.TreeMap String Value

/-- The register window of an activation. -/
structure WindowRef where
  index : Nat
  deriving DecidableEq, Inhabited

/-- What a function runs. -/
inductive FunctionBody where
  | native (f : Native)
  | script (chunk : Chunk)
  deriving Inhabited

/-- A function. -/
structure Function where
  body : FunctionBody
  /-- The scope that the body runs in; the global one if there is none. -/
  scope : Option ScopeRef := none
  /-- The value of `this` in the body. -/
  receiver : Value := .void
  /-- The values of parameters that get no argument. -/
  defaults : Array Value := #[]
  deriving Inhabited

/-- Reading and writing through functions. -/
structure Property where
  getter : Option Function
  setter : Option Function
  deriving Inhabited

/-- One register of a window. -/
structure Cell where
  window : WindowRef
  index : Nat
  deriving DecidableEq, Inhabited

/-- A scope: named variables, or the activation of a function. -/
inductive Scope where
  | named (parent : Option ScopeRef) (vars : Std.HashMap String Value)
  /-- The registers of a running or finished function, with those that have names, and the cells
  of enclosing activations that it is linked to. -/
  | activation (parent : ScopeRef) (window : WindowRef) (locals : Std.HashMap String Nat)
      (upvalues : Std.HashMap String Cell)

instance : Inhabited Scope := ⟨.named none ∅⟩

/-- A class, or an instance of one: an instance is an object with a defining class. -/
structure ClassObject where
  name : String
  parents : List ClassRef := []
  instantiable : Bool := false
  /-- The fields that each new instance starts with. -/
  defaults : Std.HashMap String Value := ∅
  members : Std.HashMap String Value := ∅
  defining : Option ClassRef := none
  /-- What makes the host data of new instances. -/
  constructor : Option HostConstructor := none
  payload : Option Payload := none
  deriving Inhabited

/-- The stores of all objects. -/
structure Heap where
  arrays : Array (Array Value) := #[]
  dicts : Array Dict := #[]
  functions : Array Function := #[]
  properties : Array Property := #[]
  scopes : Array Scope := #[]
  windows : Array (Array Value) := #[]
  classes : Array ClassObject := #[]
  deriving Inhabited

namespace Heap

/-! ## Reading -/

def array (h : Heap) (r : ArrayRef) : Array Value := h.arrays.getD r.index #[]
def dict (h : Heap) (r : DictRef) : Dict := h.dicts.getD r.index ∅
def function (h : Heap) (r : FunctionRef) : Function := h.functions.getD r.index default
def property (h : Heap) (r : PropertyRef) : Property := h.properties.getD r.index default
def scope (h : Heap) (r : ScopeRef) : Scope := h.scopes.getD r.index default
def window (h : Heap) (r : WindowRef) : Array Value := h.windows.getD r.index #[]
def classObject (h : Heap) (r : ClassRef) : ClassObject := h.classes.getD r.index default

/-- The chunk of a value that is a function written in the language. -/
def chunk? (h : Heap) : Value → Option Chunk
  | .function r =>
    match (h.function r).body with
    | .script chunk => some chunk
    | .native _ => none
  | _ => none

/-! ## New objects -/

def newArray (h : Heap) (items : Array Value) : ArrayRef × Heap :=
  (⟨h.arrays.size⟩, { h with arrays := h.arrays.push items })

def newDict (h : Heap) (entries : Dict) : DictRef × Heap :=
  (⟨h.dicts.size⟩, { h with dicts := h.dicts.push entries })

def newFunction (h : Heap) (f : Function) : FunctionRef × Heap :=
  (⟨h.functions.size⟩, { h with functions := h.functions.push f })

def newProperty (h : Heap) (p : Property) : PropertyRef × Heap :=
  (⟨h.properties.size⟩, { h with properties := h.properties.push p })

def newScope (h : Heap) (s : Scope) : ScopeRef × Heap :=
  (⟨h.scopes.size⟩, { h with scopes := h.scopes.push s })

def newWindow (h : Heap) (registers : Array Value) : WindowRef × Heap :=
  (⟨h.windows.size⟩, { h with windows := h.windows.push registers })

def newClass (h : Heap) (c : ClassObject) : ClassRef × Heap :=
  (⟨h.classes.size⟩, { h with classes := h.classes.push c })

/-! ## Writing -/

def modifyArray (h : Heap) (r : ArrayRef) (f : Array Value → Array Value) : Heap :=
  { h with arrays := h.arrays.modify r.index f }

def modifyDict (h : Heap) (r : DictRef) (f : Dict → Dict) : Heap :=
  { h with dicts := h.dicts.modify r.index f }

def modifyScope (h : Heap) (r : ScopeRef) (f : Scope → Scope) : Heap :=
  { h with scopes := h.scopes.modify r.index f }

def modifyClass (h : Heap) (r : ClassRef) (f : ClassObject → ClassObject) : Heap :=
  { h with classes := h.classes.modify r.index f }

/-- Writes a register of a window; nothing happens outside of the window. -/
def setCell (h : Heap) (cell : Cell) (v : Value) : Heap :=
  { h with windows := h.windows.modify cell.window.index fun w => w.setIfInBounds cell.index v }

/-- The content of a register of a window. -/
def cell? (h : Heap) (cell : Cell) : Option Value :=
  (h.window cell.window)[cell.index]?

end Heap

end ScriptEngine
