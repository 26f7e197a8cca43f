import ScriptEngine.Access.Variable

/-!
# The place of a name

A name is stored in the first scope of a chain that binds it: as a variable of a named scope, or in a
register that an activation has for it (`Heap.place?`). The walks that read, write and remove a name
are written apart from each other, and from the one that looks it up. Each of them stops at this place
(`Script.getVariable_eq`, `Script.setVariable_eq`, `Script.removeVariable_eq`), whatever is in the heap.
Only a lookup goes on where the register of a local is not there, so it finds what is read if all
registers are there (`Heap.lookup?_eq`).

The proofs are inductions on the index of the scope, which goes down along a chain. `Heap.place?_eq` and
`Heap.outermost_eq` are the same steps for the place and for the outermost scope.
-/

namespace ScriptEngine

/-- Where the value of a name is stored. -/
inductive Place where
  /-- A variable of a named scope. -/
  | variable (scope : ScopeRef)
  /-- A register of a window. -/
  | register (cell : Cell)
  deriving DecidableEq, Inhabited

namespace Heap

variable (h : Heap) (s : ScopeRef) (name : String)

/-- Where a scope itself stores a name. -/
def ownPlace? (name : String) (s : ScopeRef) : Option Place :=
  match h.scope s with
  | .named _ vars => if vars.contains name then some (.variable s) else none
  | .activation _ window locals upvalues =>
    match locals[name]? with
    | some index => some (.register ⟨window, index⟩)
    | none => upvalues[name]?.map .register

/-- Where a name that is looked up in a scope is stored. -/
def place? : Option Place :=
  (h.chain s).findSome? (h.ownPlace? name)

/-- What is stored for a name at a place. -/
def atPlace (name : String) : Place → Value
  | .variable s =>
    match h.scope s with
    | .named _ vars => vars.getD name .void
    | .activation _ _ _ _ => .void
  | .register cell => (h.cell? cell).getD .void

/-- The value of a name in a scope, void if its register is not there. -/
def bound? : Option Value :=
  (h.place? s name).map (h.atPlace name)

/-- The outermost scope of a chain. -/
def outermost : ScopeRef :=
  (h.chain s).getLast?.getD s

/-! ## Chains -/

section Chains

variable {h : Heap} {s : ScopeRef} {name : String}

theorem enclosing?_of_parent? {p : ScopeRef} (hp : (h.scope s).parent? = some p)
    (hlt : p.index < s.index) : h.enclosing? s = some ⟨p, hlt⟩ := by
  unfold enclosing?
  simp only [hp, dif_pos hlt]

theorem enclosing?_of_root (hp : (h.scope s).parent? = none) : h.enclosing? s = none := by
  unfold enclosing?
  simp only [hp]

theorem chain_of_parent {p : ScopeRef} (hp : (h.scope s).parent? = some p)
    (hlt : p.index < s.index) : h.chain s = s :: h.chain p := by
  rw [chain, enclosing?_of_parent? hp hlt]

theorem chain_of_root (hp : (h.scope s).parent? = none) : h.chain s = [s] := by
  rw [chain, enclosing?_of_root hp]

theorem ownPlace?_of_named {parent : Option ScopeRef} {vars : Std.HashMap String Value}
    (hs : h.scope s = .named parent vars) :
    h.ownPlace? name s = vars[name]?.map fun _ => .variable s := by
  simp only [ownPlace?, hs, Std.HashMap.contains_eq_isSome_getElem?]
  rcases vars[name]? with _ | v <;> rfl

theorem ownPlace?_of_activation {parent : ScopeRef} {window : WindowRef}
    {locals : Std.HashMap String Nat} {upvalues : Std.HashMap String Cell}
    (hs : h.scope s = .activation parent window locals upvalues) :
    h.ownPlace? name s = (locals[name]?.map fun i => Place.register ⟨window, i⟩).or
      (upvalues[name]?.map .register) := by
  simp only [ownPlace?, hs]
  rcases locals[name]? with _ | i <;> rfl

theorem atPlace_of_named {parent : Option ScopeRef} {vars : Std.HashMap String Value} {v : Value}
    (hs : h.scope s = .named parent vars) (hv : vars[name]? = some v) :
    h.atPlace name (.variable s) = v := by
  simp only [atPlace, hs, Std.HashMap.getD_eq_getD_getElem?, hv, Option.getD_some]

end Chains

variable (h : Heap) (s : ScopeRef) (name : String)

theorem place?_eq : h.place? s name =
    match h.ownPlace? name s, h.enclosing? s with
    | some place, _ => some place
    | none, some ⟨p, _⟩ => h.place? p name
    | none, none => none := by
  rw [place?, chain, List.findSome?_cons]
  rcases h.ownPlace? name s with _ | place
  · rcases h.enclosing? s with _ | ⟨p, hlt⟩ <;> rfl
  · rfl

theorem outermost_eq : h.outermost s =
    match h.enclosing? s with
    | some ⟨p, _⟩ => h.outermost p
    | none => s := by
  rw [outermost, chain]
  rcases h.enclosing? s with _ | ⟨p, hlt⟩
  · rfl
  · obtain ⟨rest, hrest⟩ : ∃ rest, h.chain p = p :: rest := ⟨_, by rw [chain]⟩
    dsimp only
    rw [outermost, hrest, List.getLast?_cons, List.getLast?_cons]
    rfl

/-! ## Looking a name up -/

variable {h s name}

/-- A lookup finds what is read, if the register of the name is there. -/
theorem lookup?_eq (hcell : ∀ c, h.place? s name = some (.register c) → ∃ v, h.cell? c = some v) :
    h.lookup? s name = h.bound? s name := by
  induction hn : s.index using Nat.strongRecOn generalizing s with
  | ind n ih =>
    have hrec (p : ScopeRef) (hlt : p.index < s.index) := @ih p.index (hn ▸ hlt) p
    rw [lookup?, bound?]
    rw [place?_eq] at hcell ⊢
    rcases hs : h.scope s with ⟨parent, vars⟩ | ⟨parent, window, locals, upvalues⟩ <;> dsimp only
    · rw [ownPlace?_of_named hs] at hcell ⊢
      rcases hv : vars[name]? with _ | v
      · rw [hv] at hcell
        rcases henclosing : h.enclosing? s with _ | ⟨p, hlt⟩
        · rfl
        · rw [henclosing] at hcell
          exact hrec p hlt hcell rfl
      · rw [Option.map_some]
        dsimp only
        rw [Option.map_some, atPlace_of_named hs hv]
    · rw [ownPlace?_of_activation hs] at hcell ⊢
      rcases hlocal : locals[name]? with _ | index
      · rw [hlocal] at hcell
        rcases hup : upvalues[name]? with _ | cell
        · rw [hup] at hcell
          rcases henclosing : h.enclosing? s with _ | ⟨p, hlt⟩
          · rfl
          · rw [henclosing] at hcell
            exact hrec p hlt hcell rfl
        · rfl
      · rw [hlocal] at hcell
        obtain ⟨v, hv⟩ := hcell ⟨window, index⟩ rfl
        dsimp only [Option.map_some, Option.some_or]
        rw [hv, atPlace, hv]
        rfl

end Heap

/-! ## Reading, writing and removing a name -/

namespace Script

variable (call : Invoke) (s : ScopeRef) (name : String)

theorem getHeap_bind_apply {β : Type} (k : Heap → Script β) (e : Engine) :
    (getHeap >>= k) e = k e.heap e :=
  rfl

/-- Reading a name goes through the property that is bound, if it is one. -/
theorem getVariable_eq : getVariable call s name = (do
    match (← getHeap).bound? s name with
    | some v => readThrough call v
    | none => return .undefined) := by
  induction hn : s.index using Nat.strongRecOn generalizing s with
  | ind n ih =>
    have hrec (p : ScopeRef) (hlt : p.index < s.index) := ih p.index (hn ▸ hlt) p rfl
    funext e
    rw [getVariable, getHeap_bind_apply, getHeap_bind_apply, Heap.bound?, Heap.place?_eq]
    rcases hs : e.heap.scope s with ⟨parent, vars⟩ | ⟨parent, window, locals, upvalues⟩ <;>
      dsimp only
    · rw [Heap.ownPlace?_of_named hs]
      rcases hv : vars[name]? with _ | v
      · rcases e.heap.enclosing? s with _ | ⟨p, hlt⟩
        · rfl
        · exact congrFun (hrec p hlt) e
      · rw [Option.map_some]
        dsimp only
        rw [Option.map_some, Heap.atPlace_of_named hs hv]
    · rw [Heap.ownPlace?_of_activation hs]
      rcases locals[name]? with _ | index
      · rcases upvalues[name]? with _ | cell
        · rcases e.heap.enclosing? s with _ | ⟨p, hlt⟩
          · rfl
          · exact congrFun (hrec p hlt) e
        · rfl
      · rfl

/-- Writes a name that is bound at a place. -/
def writePlace (v : Value) : Place → Script Unit
  | .variable s => do
    match (← getHeap).atPlace name (.variable s) with
    | .property r =>
      let p := (← getHeap).property r
      p.write call v
    | _ => modifyHeap (·.setVariable s name v)
  | .register cell => writeCell call cell v

/-- Writing a name goes to the place where it is bound, or else to the outermost scope. -/
theorem setVariable_eq (v : Value) : setVariable call s name v = (do
    let h ← getHeap
    match h.place? s name with
    | some place => writePlace call name v place
    | none =>
      let root := h.outermost s
      if h.isActivation root then raise (.undeclared name)
      else modifyHeap (·.setVariable root name v)) := by
  induction hn : s.index using Nat.strongRecOn generalizing s with
  | ind n ih =>
    have hrec (p : ScopeRef) (hlt : p.index < s.index) := ih p.index (hn ▸ hlt) p rfl
    funext e
    rw [setVariable, getHeap_bind_apply, getHeap_bind_apply, Heap.place?_eq, Heap.outermost_eq]
    rcases hs : e.heap.scope s with ⟨parent, vars⟩ | ⟨parent, window, locals, upvalues⟩ <;>
      dsimp only
    · rw [Heap.ownPlace?_of_named hs]
      rcases hv : vars[name]? with _ | w
      · rcases e.heap.enclosing? s with _ | ⟨p, hlt⟩
        · simp only [Option.map_none, Heap.isActivation, hs, Bool.false_eq_true, if_false]
        · exact congrFun (hrec p hlt) e
      · rw [Option.map_some]
        dsimp only [writePlace]
        rw [getHeap_bind_apply, Heap.atPlace_of_named hs hv]
        cases w <;> rfl
    · rw [Heap.ownPlace?_of_activation hs]
      rcases locals[name]? with _ | index
      · rcases upvalues[name]? with _ | cell
        · rcases e.heap.enclosing? s with _ | ⟨p, hlt⟩
          · simp only [Option.map_none, Option.or_none, Heap.isActivation, hs, if_true]
          · exact congrFun (hrec p hlt) e
        · rfl
      · rfl

/-- Removing a name erases the variable where it is bound. -/
theorem removeVariable_eq : removeVariable s name = (do
    match (← getHeap).place? s name with
    | some (.variable owner) => modifyHeap (·.eraseVariable owner name)
    | some (.register _) => raise (.localDeletion name)
    | none => return ()) := by
  induction hn : s.index using Nat.strongRecOn generalizing s with
  | ind n ih =>
    have hrec (p : ScopeRef) (hlt : p.index < s.index) := ih p.index (hn ▸ hlt) p rfl
    funext e
    rw [removeVariable, getHeap_bind_apply, getHeap_bind_apply, Heap.place?_eq]
    rcases hs : e.heap.scope s with ⟨parent, vars⟩ | ⟨parent, window, locals, upvalues⟩ <;>
      dsimp only
    · rw [Heap.ownPlace?_of_named hs, Std.HashMap.contains_eq_isSome_getElem?]
      rcases vars[name]? with _ | w
      · rcases e.heap.enclosing? s with _ | ⟨p, hlt⟩
        · rfl
        · exact congrFun (hrec p hlt) e
      · rfl
    · rw [Heap.ownPlace?_of_activation hs, Std.HashMap.contains_eq_isSome_getElem?,
        Std.HashMap.contains_eq_isSome_getElem?]
      rcases locals[name]? with _ | index
      · rcases upvalues[name]? with _ | cell
        · rcases e.heap.enclosing? s with _ | ⟨p, hlt⟩
          · rfl
          · exact congrFun (hrec p hlt) e
        · rfl
      · rfl

end Script

/-! ## Registers -/

namespace Heap

variable {h : Heap} {s : ScopeRef} {name : String} {c : Cell}

/-- A name is stored in a register: that is where it is read, written and looked up. -/
structure StoredIn (h : Heap) (s : ScopeRef) (name : String) (c : Cell) : Prop where
  place : h.place? s name = some (.register c)
  read : ∀ (call : Invoke) (e : Engine), e.heap = h → Script.getVariable call s name e =
    Script.readThrough call ((h.cell? c).getD .void) e
  write : ∀ (call : Invoke) (v : Value) (e : Engine), e.heap = h →
    Script.setVariable call s name v e = Script.writeCell call c v e
  found : ∀ v, h.cell? c = some v → h.lookup? s name = some v

theorem storedIn_of_place? (hc : h.place? s name = some (.register c)) : h.StoredIn s name c where
  place := hc
  read := by
    rintro call e rfl
    rw [Script.getVariable_eq, Script.getHeap_bind_apply, bound?, hc]
    rfl
  write := by
    rintro call v e rfl
    rw [Script.setVariable_eq, Script.getHeap_bind_apply, hc]
    rfl
  found v hv := by
    have hcell : ∀ c', h.place? s name = some (.register c') → ∃ w, h.cell? c' = some w := by
      intro c' hc'
      cases hc.symm.trans hc'
      exact ⟨v, hv⟩
    rw [lookup?_eq hcell, bound?, hc, Option.map_some, atPlace, hv]
    rfl

end Heap

end ScriptEngine
