import ScriptEngine.Engine

/-!
# New engines

A new engine has the four classes of primitive values with their members, bound in the global
scope under their names, and the global function `log`.
-/

namespace ScriptEngine

namespace Script

/-- Binds a name in the global scope. -/
def setGlobal (name : String) (v : Value) : Script Unit :=
  modify fun e => { e with heap := e.heap.define e.globalScope name v }

/-- Gives a class a native function as a member. -/
def installMember (c : ClassRef) (name : String) (n : Native) : Script Unit := do
  let f ← newFunction { body := .native n }
  modifyHeap (·.setMember c name f)

/-- Gives a class a property of native functions. -/
def installProperty (c : ClassRef) (name : String) (getter : Native) (setter : Option Native) :
    Script Unit := do
  let p ← newProperty
    { getter := some { body := .native getter }, setter := setter.map ({ body := .native · }) }
  modifyHeap (·.setMember c name p)

/-- Installs the members of numbers. -/
def installNumber (c : ClassRef) : Script Unit :=
  installMember c "toString" .numberToString

/-- Installs the members of strings. -/
def installString (c : ClassRef) : Script Unit := do
  installProperty c "length" (.string .length) none
  let members : List (String × StringMember) :=
    [("toString", .toString), ("startsWith", .startsWith), ("indexOf", .indexOf),
      ("toLowerCase", .toLowerCase), ("toUpperCase", .toUpperCase), ("substring", .substring),
      ("substr", .substring), ("format", .format)]
  for (name, which) in members do
    installMember c name (.string which)

/-- Installs the members of arrays. -/
def installArray (c : ClassRef) : Script Unit := do
  installProperty c "length" (.array .length) (some (.array .setLength))
  installProperty c "count" (.array .length) (some (.array .setLength))
  let members : List (String × ArrayMember) :=
    [("add", .add), ("insert", .insert), ("erase", .erase), ("remove", .remove), ("find", .find),
      ("clear", .clear), ("reverse", .reverse), ("sort", .sort), ("join", .join),
      ("split", .split), ("assign", .assign), ("copy", .assign), ("assignStruct", .assignStruct),
      ("deepcopy", .assignStruct)]
  for (name, which) in members do
    installMember c name (.array which)

/-- Installs the members of the four classes and binds the global names. -/
def install : Script Unit := do
  let e ← get
  installNumber e.numberClass
  installString e.stringClass
  installArray e.arrayClass
  setGlobal "int" (.classObj e.numberClass)
  setGlobal "string" (.classObj e.stringClass)
  setGlobal "array" (.classObj e.arrayClass)
  setGlobal "dictionary" (.classObj e.dictClass)
  setGlobal "log" (← newFunction { body := .native .log })

end Script

namespace Engine

/-- An engine with the four classes but without their members. -/
def bare (limits : Limits) : Engine where
  limits
  heap :=
    { scopes := #[.named none ∅]
      classes := #[{ name := "int" }, { name := "string" }, { name := "array" },
        { name := "dictionary" }] }
  globalScope := ⟨0⟩
  numberClass := ⟨0⟩
  stringClass := ⟨1⟩
  arrayClass := ⟨2⟩
  dictClass := ⟨3⟩

/-- A new engine. -/
def create (limits : Limits) : Engine :=
  match Script.install.run (bare limits) with
  | .ok _ e => e
  | .error _ e => e

end Engine

end ScriptEngine
