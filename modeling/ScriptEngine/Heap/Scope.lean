import ScriptEngine.Heap

/-!
# Scopes in the heap

A name is looked up along the chain of scopes: a scope, its parent, and so on. It is found in the
first scope that binds it, either as a variable of a named scope or in a register: a local of an
activation, or a cell of an enclosing activation that it is linked to.

Parents are made before their children, so the indices along a chain go down and the chain ends.
-/

namespace ScriptEngine

def Scope.parent? : Scope → Option ScopeRef
  | .named parent _ => parent
  | .activation parent _ _ _ => some parent

namespace Heap

/-- The scope around a scope. -/
def enclosing? (h : Heap) (s : ScopeRef) : Option { p : ScopeRef // p.index < s.index } :=
  match (h.scope s).parent? with
  | some p => if hlt : p.index < s.index then some ⟨p, hlt⟩ else none
  | none => none

/-- A scope and those around it, innermost first. -/
def chain (h : Heap) (s : ScopeRef) : List ScopeRef :=
  s :: match h.enclosing? s with
    | some ⟨p, _⟩ => chain h p
    | none => []
termination_by s.index

/-- The value of a name in a scope; properties are not read through. A local whose register is not
there is looked up further outwards. -/
def lookup? (h : Heap) (s : ScopeRef) (name : String) : Option Value :=
  let own := match h.scope s with
    | .named _ vars => vars[name]?
    | .activation _ window locals upvalues =>
      match locals[name]?, upvalues[name]? with
      | some index, _ => h.cell? ⟨window, index⟩
      | none, some cell => some ((h.cell? cell).getD .void)
      | none, none => none
  match own, h.enclosing? s with
  | some v, _ => some v
  | none, some ⟨p, _⟩ => lookup? h p name
  | none, none => none
termination_by s.index

/-- Binds a variable of a named scope. -/
def setVariable (h : Heap) (s : ScopeRef) (name : String) (v : Value) : Heap :=
  h.modifyScope s fun scope =>
    match scope with
    | .named parent vars => .named parent (vars.insert name v)
    | scope => scope

/-- Removes a variable of a named scope. -/
def eraseVariable (h : Heap) (s : ScopeRef) (name : String) : Heap :=
  h.modifyScope s fun scope =>
    match scope with
    | .named parent vars => .named parent (vars.erase name)
    | scope => scope

/-- Binds a name in a scope itself. An activation binds only the locals it has. -/
def define (h : Heap) (s : ScopeRef) (name : String) (v : Value) : Heap :=
  match h.scope s with
  | .named _ _ => h.setVariable s name v
  | .activation _ window locals _ =>
    match locals[name]? with
    | some index => h.setCell ⟨window, index⟩ v
    | none => h

/-- Records that a local of an activation is in a register of its window. -/
def registerLocal (h : Heap) (s : ScopeRef) (name : String) (index : Nat) : Heap :=
  h.modifyScope s fun scope =>
    match scope with
    | .activation parent window locals upvalues =>
      .activation parent window (locals.insert name index) upvalues
    | scope => scope

/-- The cell of a name among the locals of an activation. -/
def localCell? (h : Heap) (name : String) (s : ScopeRef) : Option Cell :=
  match h.scope s with
  | .activation _ window locals _ => locals[name]?.map (⟨window, ·⟩)
  | .named _ _ => none

def isActivation (h : Heap) (s : ScopeRef) : Bool :=
  match h.scope s with
  | .activation _ _ _ _ => true
  | .named _ _ => false

/-- The cell that a link from an activation would go to: that of the nearest enclosing activation
with a local of the name, before any named scope. -/
def enclosingCell? (h : Heap) (s : ScopeRef) (name : String) : Option Cell :=
  ((h.chain s).tail.takeWhile h.isActivation).findSome? (h.localCell? name)

/-- Links a name in an activation to the local of an enclosing one. A link that is there stays. -/
def captureUpvalue (h : Heap) (s : ScopeRef) (name : String) : Heap :=
  match h.enclosingCell? s name with
  | none => h
  | some cell =>
    h.modifyScope s fun scope =>
      match scope with
      | .activation parent window locals upvalues =>
        .activation parent window locals (upvalues.insertIfNew name cell)
      | scope => scope

end Heap

end ScriptEngine
