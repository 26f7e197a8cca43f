import ScriptEngine.Access.Property

/-!
# Variables

Names are read, written and removed along the chain of scopes, each by a walk of its own. Reading a
name gives undefined if no scope of the chain binds it. Writing goes to the first scope that binds it,
or to the outermost one if none does; a property there receives the value through its setter.
-/

namespace ScriptEngine.Script

/-- Reads a name in a scope. -/
def getVariable (call : Invoke) (s : ScopeRef) (name : String) : Script Value := do
  let h ← getHeap
  match h.scope s with
  | .named _ vars =>
    match vars[name]?, h.enclosing? s with
    | some v, _ => readThrough call v
    | none, some ⟨p, _⟩ => getVariable call p name
    | none, none => return .undefined
  | .activation _ window locals upvalues =>
    match locals[name]? with
    | some index => readThrough call ((h.cell? ⟨window, index⟩).getD .void)
    | none =>
      match upvalues[name]? with
      | some cell => readThrough call ((h.cell? cell).getD .void)
      | none =>
        match h.enclosing? s with
        | some ⟨p, _⟩ => getVariable call p name
        | none => return .undefined
termination_by s.index

/-- Writes a register of a window, through a property if it holds one. -/
def writeCell (call : Invoke) (cell : Cell) (v : Value) : Script Unit := do
  match (← getHeap).cell? cell with
  | some (.property r) =>
    let p := (← getHeap).property r
    p.write call v
  | some _ => modifyHeap (·.setCell cell v)
  | none => raise .slotOutOfRange

/-- Writes a name in a scope. -/
def setVariable (call : Invoke) (s : ScopeRef) (name : String) (v : Value) : Script Unit := do
  let h ← getHeap
  match h.scope s with
  | .named _ vars =>
    match vars[name]?, h.enclosing? s with
    | some (.property r), _ => (h.property r).write call v
    | none, some ⟨p, _⟩ => setVariable call p name v
    | _, _ => modifyHeap (·.setVariable s name v)
  | .activation _ window locals upvalues =>
    match locals[name]? with
    | some index => writeCell call ⟨window, index⟩ v
    | none =>
      match upvalues[name]? with
      | some cell => writeCell call cell v
      | none =>
        match h.enclosing? s with
        | some ⟨p, _⟩ => setVariable call p name v
        | none => raise (.undeclared name)
termination_by s.index

/-- Removes a name that is looked up in a scope. Names in registers cannot be removed. -/
def removeVariable (s : ScopeRef) (name : String) : Script Unit := do
  let h ← getHeap
  match h.scope s with
  | .named _ vars =>
    if vars.contains name then modifyHeap (·.eraseVariable s name)
    else
      match h.enclosing? s with
      | some ⟨p, _⟩ => removeVariable p name
      | none => return ()
  | .activation _ _ locals upvalues =>
    if locals.contains name || upvalues.contains name then raise (.localDeletion name)
    else
      match h.enclosing? s with
      | some ⟨p, _⟩ => removeVariable p name
      | none => return ()
termination_by s.index

end ScriptEngine.Script
