import ScriptEngine.Heap

/-!
# Classes in the heap

Members are inherited depth first: a class, then each parent in order with all it inherits. An
instance inherits from its defining class. A new instance starts with the default fields of its
class and of all ancestors; where two of them declare a field, the class that comes later in
post-order wins, so a class wins over its parents and a later parent over an earlier one.
-/

namespace ScriptEngine.Heap

/-- A class and its ancestors, depth first, each class before its parents. A class occurs once
for each way that leads to it. -/
def ancestry (h : Heap) (c : ClassRef) : List ClassRef :=
  c :: (h.classObject c).parents.flatMap fun p => if p.index < c.index then ancestry h p else []
termination_by c.index

/-- A class and its ancestors, depth first, each class behind its parents. -/
def ancestryUp (h : Heap) (c : ClassRef) : List ClassRef :=
  ((h.classObject c).parents.flatMap fun p => if p.index < c.index then ancestryUp h p else []) ++
    [c]
termination_by c.index

/-- A member that an object has itself. -/
def ownMember? (h : Heap) (name : String) (c : ClassRef) : Option Value :=
  (h.classObject c).members[name]?

/-- A member of a class or of the nearest ancestor that has it. -/
def member? (h : Heap) (c : ClassRef) (name : String) : Option Value :=
  (h.ancestry c).findSome? (h.ownMember? name)

/-- A member that an object does not have itself: an instance gets it from its class, a class
from its parents. -/
def inherited? (h : Heap) (c : ClassRef) (name : String) : Option Value :=
  match (h.classObject c).defining with
  | some d => h.member? d name
  | none => (h.classObject c).parents.findSome? (h.member? · name)

/-- Gives an object a member of its own. -/
def setMember (h : Heap) (c : ClassRef) (name : String) (v : Value) : Heap :=
  h.modifyClass c fun o => { o with members := o.members.insert name v }

def eraseMember (h : Heap) (c : ClassRef) (name : String) : Heap :=
  h.modifyClass c fun o => { o with members := o.members.erase name }

/-- The class that instances of an object have: its own class if it is an instance. -/
def definingClass (h : Heap) (c : ClassRef) : ClassRef :=
  (h.classObject c).defining.getD c

/-- The fields that a new instance of a class starts with. -/
def defaultFields (h : Heap) (c : ClassRef) : Std.HashMap String Value :=
  (h.ancestryUp c).foldl (fun fields d => fields.insertMany (h.classObject d).defaults.toList) ∅

/-- A new instance of a class. -/
def newInstance (h : Heap) (c : ClassRef) (payload : Option Payload) : ClassRef × Heap :=
  let o := h.classObject c
  h.newClass
    { name := o.name, instantiable := o.instantiable, members := h.defaultFields c,
      defining := some c, payload }

/-- Whether an object counts as an instance of a class name: the name of its class or of an
ancestor, or `object`. -/
def classIsInstance (h : Heap) (name : String) (c : ClassRef) : Bool :=
  let o := h.classObject c
  match o.defining with
  | some d => if d.index < c.index then classIsInstance h name d else false
  | none =>
    name = o.name || name = "object" ||
      o.parents.any fun p => if p.index < c.index then classIsInstance h name p else false
termination_by c.index

/-- Whether a value counts as an instance of a kind or class name. -/
def isInstanceOf (h : Heap) (v : Value) (name : String) : Bool :=
  match v with
  | .void | .undefined => false
  | .number _ => name = "number"
  | .str _ => name = "string"
  | .classObj c => h.classIsInstance name c
  | v => name = v.kind.name || name = "object"

end ScriptEngine.Heap
