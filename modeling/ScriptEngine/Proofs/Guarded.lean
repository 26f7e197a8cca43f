import ScriptEngine.Compile
import ScriptEngine.Heap.Class
import ScriptEngine.Proofs.Compile.Grammar
import ScriptEngine.Proofs.Places
import ScriptEngine.Value.Render

/-!
# Guarded heaps

A heap is *guarded* if everything in it that can be run was compiled, and every name of a scope
that stands for a register stands for one inside its window. The operations of the machine keep
heaps guarded, and what was in a heap stays where it is (`Heap.Extends`).

A heap can also be guarded against a region, the registers of one window from an index on: no
name may stand for one of those. If the region is shut as well, `Heap.graft` replaces its
contents, and nothing but the frame that owns the window can tell the difference.
-/

namespace ScriptEngine

/-! ## Compiled code -/

/-- A chunk that comes from a source: that of a script, or of a function inside of one. -/
def Chunk.Compiled (c : Chunk) : Prop :=
  ∃ source root, compile source = .ok root ∧ root.Contains c

theorem Chunk.Contains.trans {c d e : Chunk} (h : c.Contains d) (h' : d.Contains e) :
    c.Contains e := by
  induction h with
  | refl => exact h'
  | step hk _ ih => exact .step hk (ih h')

theorem Chunk.Compiled.wellFormed {c : Chunk} (h : c.Compiled) : c.WellFormed := by
  obtain ⟨source, root, hroot, hc⟩ := h
  exact wellFormed_of_compile hroot hc

/-- The functions in a compiled chunk are compiled. -/
theorem Chunk.Compiled.template {c inner : Chunk} (h : c.Compiled) {k : Int}
    (hk : c.constantAt? k = some (.template inner)) : inner.Compiled := by
  obtain ⟨source, root, hroot, hc⟩ := h
  unfold constantAt? at hk
  split at hk
  · exact ⟨source, root, hroot, hc.trans (.step hk (.refl _))⟩
  · cases hk

/-- A function that is native or whose code was compiled. -/
def Function.Compiled (f : Function) : Prop :=
  ∀ c, f.body = .script c → c.Compiled

theorem Function.compiled_native (n : Native) (scope : Option ScopeRef) (receiver : Value)
    (defaults : Array Value) : Function.Compiled ⟨.native n, scope, receiver, defaults⟩ :=
  nofun

/-- A property whose functions were compiled. -/
structure Property.Compiled (p : Property) : Prop where
  getter : ∀ f, p.getter = some f → f.Compiled
  setter : ∀ f, p.setter = some f → f.Compiled

/-! ## Regions -/

theorem WindowRef.index_inj {v w : WindowRef} : v.index = w.index ↔ v = w := by
  cases v
  cases w
  simp

/-- The registers of a window from an index on. -/
structure Region where
  window : WindowRef
  first : Nat
  /-- Whether the registers are left alone. -/
  shut : Bool

variable {ρ : Option Region} {h : Heap} {t : Nat → Value}

/-- A cell that does not lie in a region. -/
def Cell.Outside (c : Cell) (ρ : Option Region) : Prop :=
  ∀ r ∈ ρ, c.window = r.window → c.index < r.first

/-- A cell that may be used: it does not lie in a region that is shut. -/
def Cell.Free (c : Cell) (ρ : Option Region) : Prop :=
  ∀ r ∈ ρ, r.shut = true → c.window = r.window → c.index < r.first

theorem Cell.Outside.free {c : Cell} (hc : c.Outside ρ) : c.Free ρ :=
  fun r hr _ => hc r hr

/-- A window with the registers of a region replaced. -/
def Region.overwrite (r : Region) (t : Nat → Value) (w : Array Value) : Array Value :=
  w.mapIdx fun i v => if r.first ≤ i then t i else v

@[simp] theorem Region.size_overwrite (r : Region) (t : Nat → Value) (w : Array Value) :
    (r.overwrite t w).size = w.size := by
  simp [overwrite]

theorem Region.getElem?_overwrite (r : Region) (t : Nat → Value) (w : Array Value) (i : Nat) :
    (r.overwrite t w)[i]? = w[i]?.map fun v => if r.first ≤ i then t i else v := by
  simp [overwrite]

namespace Heap

/-- The heap with the registers of a shut region replaced. -/
def graft (ρ : Option Region) (t : Nat → Value) (h : Heap) : Heap :=
  { h with
    windows := match ρ with
      | some r => if r.shut then h.windows.modify r.window.index (r.overwrite t) else h.windows
      | none => h.windows }

theorem window_graft (w : WindowRef) : (h.graft ρ t).window w =
    match ρ with
    | some r => if r.shut = true ∧ r.window = w then r.overwrite t (h.window w) else h.window w
    | none => h.window w := by
  rcases ρ with _ | r
  · rfl
  · rcases hshut : r.shut
    · simp [graft, window, hshut]
    · simp only [graft, window, hshut, if_true, true_and, Array.getD_eq_getD_getElem?,
        Array.getElem?_modify]
      by_cases hw : r.window = w
      · subst hw
        simp only [if_true]
        rcases h.windows[r.window.index]? with _ | v
        · simp [Region.overwrite]
        · rfl
      · rw [if_neg (mt WindowRef.index_inj.1 hw), if_neg hw]

@[simp] theorem size_window_graft (w : WindowRef) :
    ((h.graft ρ t).window w).size = (h.window w).size := by
  rw [window_graft]
  split
  · split <;> simp
  · rfl

@[simp] theorem size_windows_graft : (h.graft ρ t).windows.size = h.windows.size := by
  simp only [graft]
  split
  · split <;> simp
  · rfl

theorem cell?_graft {c : Cell} (hc : c.Free ρ) : (h.graft ρ t).cell? c = h.cell? c := by
  unfold cell?
  rw [window_graft]
  split
  · rename_i r
    split
    · rename_i hr
      have hlt : c.index < r.first := hc r rfl hr.1 hr.2.symm
      simp [Region.getElem?_overwrite, hlt.not_ge]
    · rfl
  · rfl

theorem setCell_graft {c : Cell} (hc : c.Free ρ) (v : Value) :
    (h.graft ρ t).setCell c v = (h.setCell c v).graft ρ t := by
  rcases ρ with _ | r
  · rfl
  · rcases hshut : r.shut
    · simp [graft, setCell, hshut]
    · simp only [graft, setCell, hshut, if_true]
      congr 1
      refine Array.ext_getElem? fun n => ?_
      simp only [Array.getElem?_modify]
      by_cases hn : c.window.index = n <;> by_cases hm : r.window.index = n <;>
        simp only [hn, hm, if_true, if_false]
      -- Both change the window: one below the region, the other inside of it.
      have hlt : c.index < r.first := hc r rfl hshut (WindowRef.index_inj.1 (hn.trans hm.symm))
      rcases h.windows[n]? with _ | w
      · rfl
      · simp only [Option.map_some, Option.some.injEq]
        refine Array.ext_getElem? fun i => ?_
        simp only [Region.getElem?_overwrite, Array.getElem?_setIfInBounds, Region.size_overwrite]
        by_cases hi : c.index = i
        · subst hi
          simp only [if_true]
          by_cases hsize : c.index < w.size
          · rw [if_pos hsize, Option.map_some, if_neg (by omega)]
          · simp [hsize]
        · simp [hi]

theorem newWindow_graft (hρ : ∀ r ∈ ρ, r.window.index < h.windows.size) (w : Array Value) :
    (h.graft ρ t).newWindow w = ((h.newWindow w).1, (h.newWindow w).2.graft ρ t) := by
  rcases ρ with _ | r
  · rfl
  · rcases hshut : r.shut
    · simp [graft, newWindow, hshut]
    · have hlt : r.window.index < h.windows.size := hρ r rfl
      simp only [graft, newWindow, hshut, if_true, Array.size_modify, Prod.mk.injEq, true_and]
      congr 1
      refine Array.ext_getElem? fun n => ?_
      simp only [Array.getElem?_push, Array.getElem?_modify, Array.size_modify]
      by_cases hn : n = h.windows.size
      · simp only [hn, if_true]
        rw [if_neg (by omega)]
      · simp [hn]

/-! ## What a graft does not change -/

@[simp] theorem scope_graft (s : ScopeRef) : (h.graft ρ t).scope s = h.scope s := rfl

@[simp] theorem classObject_graft (c : ClassRef) :
    (h.graft ρ t).classObject c = h.classObject c := rfl

@[simp] theorem render_graft (quoted : Bool) (room : Nat) (v : Value) :
    (h.graft ρ t).render quoted room v = h.render quoted room v := by
  induction room generalizing v with
  | zero => cases v <;> rfl
  | succ room ih =>
    have hrec : (h.graft ρ t).render quoted room = h.render quoted room := funext ih
    cases v with
    | array r => simp only [render, hrec]; rfl
    | dict r => simp only [render, hrec]; rfl
    | _ => rfl

@[simp] theorem text_graft (v : Value) : (h.graft ρ t).text v = h.text v :=
  render_graft _ _ v

@[simp] theorem greaterThan_graft (v w : Value) :
    (h.graft ρ t).greaterThan v w = h.greaterThan v w := by
  simp only [greaterThan, text_graft]

@[simp] theorem greaterOrEqual_graft (v w : Value) :
    (h.graft ρ t).greaterOrEqual v w = h.greaterOrEqual v w := by
  simp only [greaterOrEqual, text_graft]

@[simp] theorem enclosing?_graft (s : ScopeRef) :
    (h.graft ρ t).enclosing? s = h.enclosing? s := rfl

@[simp] theorem chain_graft (s : ScopeRef) : (h.graft ρ t).chain s = h.chain s := by
  fun_induction chain h s with
  | case1 s ih =>
    rw [chain, enclosing?_graft]
    congr 1
    split
    · exact ih _ ‹_›
    · rfl

@[simp] theorem ownPlace?_graft (name : String) :
    (h.graft ρ t).ownPlace? name = h.ownPlace? name := rfl

@[simp] theorem place?_graft (s : ScopeRef) (name : String) :
    (h.graft ρ t).place? s name = h.place? s name := by
  simp only [place?, chain_graft, ownPlace?_graft]

@[simp] theorem outermost_graft (s : ScopeRef) : (h.graft ρ t).outermost s = h.outermost s := by
  simp only [outermost, chain_graft]

@[simp] theorem enclosingCell?_graft (s : ScopeRef) (name : String) :
    (h.graft ρ t).enclosingCell? s name = h.enclosingCell? s name := by
  simp only [enclosingCell?, chain_graft]
  rfl

theorem captureUpvalue_graft (s : ScopeRef) (name : String) :
    (h.graft ρ t).captureUpvalue s name = (h.captureUpvalue s name).graft ρ t := by
  simp only [captureUpvalue, enclosingCell?_graft]
  split <;> rfl

@[simp] theorem ancestry_graft (c : ClassRef) : (h.graft ρ t).ancestry c = h.ancestry c := by
  fun_induction ancestry h c with
  | case1 c ih =>
    rw [ancestry, classObject_graft]
    congr 2
    funext p
    split
    · exact ih p ‹_›
    · rfl

@[simp] theorem ancestryUp_graft (c : ClassRef) :
    (h.graft ρ t).ancestryUp c = h.ancestryUp c := by
  fun_induction ancestryUp h c with
  | case1 c ih =>
    rw [ancestryUp, classObject_graft]
    congr 2
    funext p
    split
    · exact ih p ‹_›
    · rfl

@[simp] theorem ownMember?_graft (name : String) :
    (h.graft ρ t).ownMember? name = h.ownMember? name := rfl

@[simp] theorem member?_graft (c : ClassRef) (name : String) :
    (h.graft ρ t).member? c name = h.member? c name := by
  simp only [member?, ancestry_graft, ownMember?_graft]

@[simp] theorem inherited?_graft (c : ClassRef) (name : String) :
    (h.graft ρ t).inherited? c name = h.inherited? c name := by
  simp only [inherited?, classObject_graft, member?_graft]

@[simp] theorem defaultFields_graft (c : ClassRef) :
    (h.graft ρ t).defaultFields c = h.defaultFields c := by
  simp only [defaultFields, ancestryUp_graft, classObject_graft]

theorem newInstance_graft (c : ClassRef) (payload : Option Payload) :
    (h.graft ρ t).newInstance c payload =
      ((h.newInstance c payload).1, (h.newInstance c payload).2.graft ρ t) := by
  simp only [newInstance, defaultFields_graft]
  rfl

@[simp] theorem classIsInstance_graft (name : String) (c : ClassRef) :
    (h.graft ρ t).classIsInstance name c = h.classIsInstance name c := by
  fun_induction classIsInstance h name c with
  | case1 c o d hd hlt ih =>
    rw [classIsInstance]
    simp only [classObject_graft]
    rw [hd]
    simp only [hlt, if_true, ih]
  | case2 c o d hd hlt =>
    rw [classIsInstance]
    simp only [classObject_graft]
    rw [hd]
    simp only [hlt, if_false]
  | case3 c o ho ih =>
    rw [classIsInstance]
    simp only [classObject_graft]
    rw [ho]
    dsimp only
    congr 2
    funext p
    split
    · exact ih p ‹_›
    · rfl

@[simp] theorem isInstanceOf_graft (v : Value) (name : String) :
    (h.graft ρ t).isInstanceOf v name = h.isInstanceOf v name := by
  cases v <;> simp only [isInstanceOf, classIsInstance_graft]

end Heap

/-! ## Guarded heaps -/

/-- The scope around a scope, and its window if it is an activation. -/
def Scope.shape : Scope → Option ScopeRef × Option WindowRef
  | .named parent _ => (parent, none)
  | .activation parent window _ _ => (some parent, some window)

/-- The register that a scope itself has for a name. -/
def Scope.register? (scope : Scope) (name : String) : Option Cell :=
  match scope with
  | .named _ _ => none
  | .activation _ window locals upvalues =>
    match locals[name]? with
    | some index => some ⟨window, index⟩
    | none => upvalues[name]?

namespace Heap

theorem ownPlace?_eq_register {name : String} {s : ScopeRef} {c : Cell} :
    h.ownPlace? name s = some (.register c) ↔ (h.scope s).register? name = some c := by
  unfold ownPlace? Scope.register?
  rcases h.scope s with ⟨parent, vars⟩ | ⟨parent, window, locals, upvalues⟩
  · simp
  · dsimp only
    rcases locals[name]? with _ | index
    · rcases upvalues[name]? with _ | c' <;> simp
    · simp

/-- A heap whose code was compiled, and whose names stand for registers inside their windows and
outside of a region. -/
structure Guarded (ρ : Option Region) (h : Heap) : Prop where
  functions : ∀ f ∈ h.functions, f.Compiled
  properties : ∀ p ∈ h.properties, p.Compiled
  cells : ∀ s name c, (h.scope s).register? name = some c →
    c.index < (h.window c.window).size ∧ c.Outside ρ
  region : ∀ r ∈ ρ, r.window.index < h.windows.size

/-- What was in a heap is still there: windows with their sizes, and scopes with their places. -/
structure Extends (h h' : Heap) : Prop where
  windows : h.windows.size ≤ h'.windows.size
  sizes : ∀ w : WindowRef, w.index < h.windows.size → (h'.window w).size = (h.window w).size
  scopes : h.scopes.size ≤ h'.scopes.size
  shapes : ∀ s : ScopeRef, s.index < h.scopes.size → (h'.scope s).shape = (h.scope s).shape

theorem Extends.refl (h : Heap) : h.Extends h :=
  ⟨le_refl _, fun _ _ => rfl, le_refl _, fun _ _ => rfl⟩

theorem Extends.trans {h₁ h₂ h₃ : Heap} (h₁₂ : h₁.Extends h₂) (h₂₃ : h₂.Extends h₃) :
    h₁.Extends h₃ where
  windows := h₁₂.windows.trans h₂₃.windows
  sizes w hw := (h₂₃.sizes w (hw.trans_le h₁₂.windows)).trans (h₁₂.sizes w hw)
  scopes := h₁₂.scopes.trans h₂₃.scopes
  shapes s hs := (h₂₃.shapes s (hs.trans_le h₁₂.scopes)).trans (h₁₂.shapes s hs)

theorem lt_of_cell {c : Cell} (hc : c.index < (h.window c.window).size) :
    c.window.index < h.windows.size := by
  by_contra hn
  rw [window, Array.getD_eq_getD_getElem?, Array.getElem?_eq_none (by omega)] at hc
  exact absurd hc (Nat.not_lt_zero _)

theorem cell?_isSome {c : Cell} (hc : c.index < (h.window c.window).size) :
    ∃ v, h.cell? c = some v :=
  ⟨_, Array.getElem?_eq_getElem hc⟩

/-- A window that an activation has is still its window. -/
theorem Extends.activation {h' : Heap} (hx : h.Extends h') {s : ScopeRef} {w : WindowRef}
    (hw : (h.scope s).shape.2 = some w) : (h'.scope s).shape.2 = some w := by
  rcases Nat.lt_or_ge s.index h.scopes.size with hlt | hge
  · rwa [hx.shapes s hlt]
  · rw [scope, Array.getD_eq_getD_getElem?, Array.getElem?_eq_none hge] at hw
    cases hw

/-- The place that a lookup finds, if it is a register, can be used. -/
theorem Guarded.place {s : ScopeRef} {name : String} {c : Cell} (hg : h.Guarded ρ)
    (hp : h.place? s name = some (.register c)) :
    c.index < (h.window c.window).size ∧ c.Outside ρ := by
  obtain ⟨s', -, hs'⟩ := List.exists_of_findSome?_eq_some hp
  exact hg.cells s' name c (ownPlace?_eq_register.1 hs')

theorem atPlace_graft {s : ScopeRef} {name : String} {p : Place} (hg : h.Guarded ρ)
    (hp : h.place? s name = some p) : (h.graft ρ t).atPlace name p = h.atPlace name p := by
  rcases p with s' | c
  · rfl
  · simp only [atPlace, cell?_graft (hg.place hp).2.free]

theorem bound?_graft (hg : h.Guarded ρ) (s : ScopeRef) (name : String) :
    (h.graft ρ t).bound? s name = h.bound? s name := by
  simp only [bound?, place?_graft]
  rcases hp : h.place? s name with _ | p
  · rfl
  · simp only [Option.map_some, atPlace_graft hg hp]

/-- What is looked up in a guarded heap is what is read. -/
theorem Guarded.lookup? (hg : h.Guarded ρ) (s : ScopeRef) (name : String) :
    h.lookup? s name = h.bound? s name :=
  lookup?_eq fun _ hc => cell?_isSome (hg.place hc).1

theorem lookup?_graft (hg : h.Guarded ρ) (s : ScopeRef) (name : String) :
    (h.graft ρ t).lookup? s name = h.lookup? s name := by
  rw [hg.lookup?, ← bound?_graft hg]
  refine lookup?_eq fun c hc => ?_
  rw [place?_graft] at hc
  rw [cell?_graft (hg.place hc).2.free]
  exact cell?_isSome (hg.place hc).1

theorem Guarded.function (hg : h.Guarded ρ) (r : FunctionRef) : (h.function r).Compiled := by
  rw [Heap.function, Array.getD_eq_getD_getElem?]
  rcases hf : h.functions[r.index]? with _ | f
  · exact nofun
  · exact hg.functions f (Array.mem_of_getElem? hf)

theorem Guarded.property (hg : h.Guarded ρ) (r : PropertyRef) : (h.property r).Compiled := by
  rw [Heap.property, Array.getD_eq_getD_getElem?]
  rcases hp : h.properties[r.index]? with _ | p
  · constructor
    · intro f hf
      cases hf
    · intro f hf
      cases hf
  · exact hg.properties p (Array.mem_of_getElem? hp)

/-! ## What operations keep -/

/-- A change of a heap that keeps it guarded and keeps what is in it. -/
def Keeps (ρ : Option Region) (f : Heap → Heap) (h : Heap) : Prop :=
  h.Guarded ρ → (f h).Guarded ρ ∧ h.Extends (f h)

/-- Changes of arrays, dictionaries and classes do not matter. -/
theorem keeps_of_same {f : Heap → Heap} (hf : (f h).functions = h.functions)
    (hp : (f h).properties = h.properties) (hs : (f h).scopes = h.scopes)
    (hw : (f h).windows = h.windows) : Keeps ρ f h := by
  have hscope : ∀ s, (f h).scope s = h.scope s := fun s => by simp only [scope, hs]
  have hwindow : ∀ w, (f h).window w = h.window w := fun w => by simp only [window, hw]
  intro hg
  refine ⟨⟨?_, ?_, fun s name c hc => ?_, ?_⟩, ?_⟩
  · rw [hf]
    exact hg.functions
  · rw [hp]
    exact hg.properties
  · rw [hscope] at hc
    rw [hwindow]
    exact hg.cells s name c hc
  · rw [hw]
    exact hg.region
  · exact ⟨by rw [hw], fun w _ => by rw [hwindow], by rw [hs], fun s _ => by rw [hscope]⟩

theorem keeps_newFunction {f : Function} (hf : f.Compiled) :
    Keeps ρ (fun h => (h.newFunction f).2) h := by
  intro hg
  refine ⟨⟨fun g hm => ?_, hg.properties, hg.cells, hg.region⟩,
    ⟨le_refl _, fun _ _ => rfl, le_refl _, fun _ _ => rfl⟩⟩
  rcases Array.mem_push.1 hm with hm | rfl
  · exact hg.functions g hm
  · exact hf

theorem keeps_newProperty {p : Property} (hp : p.Compiled) :
    Keeps ρ (fun h => (h.newProperty p).2) h := by
  intro hg
  refine ⟨⟨hg.functions, fun q hm => ?_, hg.cells, hg.region⟩,
    ⟨le_refl _, fun _ _ => rfl, le_refl _, fun _ _ => rfl⟩⟩
  rcases Array.mem_push.1 hm with hm | rfl
  · exact hg.properties q hm
  · exact hp

theorem scope_newScope (scope : Scope) (s : ScopeRef) :
    (h.newScope scope).2.scope s = if s.index = h.scopes.size then scope else h.scope s := by
  simp only [newScope, Heap.scope, Array.getD_eq_getD_getElem?, Array.getElem?_push]
  split <;> rfl

theorem keeps_newScope {scope : Scope} (hscope : ∀ name, scope.register? name = none) :
    Keeps ρ (fun h => (h.newScope scope).2) h := by
  intro hg
  refine ⟨⟨hg.functions, hg.properties, fun s name c hc => ?_, hg.region⟩,
    ⟨le_refl _, fun _ _ => rfl, ?_, fun s hs => ?_⟩⟩
  · rw [scope_newScope] at hc
    split at hc
    · rw [hscope] at hc
      cases hc
    · exact hg.cells s name c hc
  · simp [newScope]
  · rw [scope_newScope, if_neg hs.ne]

theorem window_newWindow (registers : Array Value) (w : WindowRef) :
    (h.newWindow registers).2.window w =
      if w.index = h.windows.size then registers else h.window w := by
  simp only [newWindow, window, Array.getD_eq_getD_getElem?, Array.getElem?_push]
  split <;> rfl

theorem keeps_newWindow (registers : Array Value) :
    Keeps ρ (fun h => (h.newWindow registers).2) h := by
  intro hg
  have hold : ∀ w : WindowRef, w.index < h.windows.size →
      (h.newWindow registers).2.window w = h.window w := fun w hw => by
    rw [window_newWindow, if_neg hw.ne]
  have hsize : (h.newWindow registers).2.windows.size = h.windows.size + 1 := by simp [newWindow]
  refine ⟨⟨hg.functions, hg.properties, fun s name c hc => ?_, fun r hr => ?_⟩,
    ⟨?_, fun w hw => ?_, le_refl _, fun _ _ => rfl⟩⟩
  · obtain ⟨hlt, hout⟩ := hg.cells s name c hc
    exact ⟨by rwa [hold _ (lt_of_cell hlt)], hout⟩
  · rw [hsize]
    exact Nat.lt_succ_of_lt (hg.region r hr)
  · rw [hsize]
    exact Nat.le_succ _
  · rw [hold w hw]

theorem size_window_setCell (c : Cell) (v : Value) (w : WindowRef) :
    ((h.setCell c v).window w).size = (h.window w).size := by
  simp only [setCell, window, Array.getD_eq_getD_getElem?, Array.getElem?_modify]
  split
  · rcases h.windows[w.index]? with _ | a <;> simp
  · rfl

/-- The content of a cell after a write to one. -/
theorem cell?_setCell (c c' : Cell) (v : Value) :
    (h.setCell c v).cell? c' = if c = c' ∧ c.index < (h.window c.window).size then some v
      else h.cell? c' := by
  obtain ⟨w, i⟩ := c
  obtain ⟨w', i'⟩ := c'
  simp only [setCell, cell?, window, Array.getD_eq_getD_getElem?, Array.getElem?_modify]
  by_cases hw : w = w'
  · subst hw
    simp only [if_true, Cell.mk.injEq, true_and]
    rcases h.windows[w.index]? with _ | a
    · simp
    · simp only [Option.map_some, Option.getD_some, Array.getElem?_setIfInBounds]
      by_cases hi : i = i'
      · subst hi
        simp only [if_true, true_and]
        split
        · rfl
        · simp [Nat.not_lt.1 ‹_›]
      · simp [hi]
  · rw [if_neg (mt WindowRef.index_inj.1 hw), if_neg (by simp [hw])]

theorem cell?_setCell_self {c : Cell} (hc : c.index < (h.window c.window).size) (v : Value) :
    (h.setCell c v).cell? c = some v := by
  rw [cell?_setCell, if_pos ⟨rfl, hc⟩]

theorem keeps_setCell (c : Cell) (v : Value) : Keeps ρ (·.setCell c v) h := by
  intro hg
  have hsize : (h.setCell c v).windows.size = h.windows.size := by simp [setCell]
  refine ⟨⟨hg.functions, hg.properties, fun s name c' hc => ?_, fun r hr => ?_⟩,
    ⟨hsize.ge, fun w _ => size_window_setCell c v w, le_refl _, fun _ _ => rfl⟩⟩
  · rw [size_window_setCell]
    exact hg.cells s name c' hc
  · rw [hsize]
    exact hg.region r hr

theorem scope_modifyScope (s : ScopeRef) (f : Scope → Scope) (u : ScopeRef) :
    (h.modifyScope s f).scope u = h.scope u ∨
      u = s ∧ (h.modifyScope s f).scope u = f (h.scope u) := by
  simp only [modifyScope, scope, Array.getD_eq_getD_getElem?, Array.getElem?_modify]
  split
  · rename_i heq
    have hu : u = s := by
      cases u
      cases s
      simp_all
    rcases h.scopes[u.index]? with _ | a
    · exact .inl rfl
    · exact .inr ⟨hu, rfl⟩
  · exact .inl rfl

/-- A change of one scope that keeps its shape, and gives its names registers that can be used. -/
theorem keeps_modifyScope {s : ScopeRef} {f : Scope → Scope}
    (hshape : ∀ scope, (f scope).shape = scope.shape)
    (hcells : ∀ scope, h.scope s = scope → ∀ name c, (f scope).register? name = some c →
      scope.register? name = some c ∨ c.index < (h.window c.window).size ∧ c.Outside ρ) :
    Keeps ρ (·.modifyScope s f) h := by
  intro hg
  refine ⟨⟨hg.functions, hg.properties, fun u name c hc => ?_, hg.region⟩,
    ⟨le_refl _, fun _ _ => rfl, ?_, fun u _ => ?_⟩⟩
  · rcases scope_modifyScope (h := h) s f u with hu | ⟨rfl, hu⟩
    · rw [hu] at hc
      exact hg.cells u name c hc
    · rw [hu] at hc
      rcases hcells _ rfl name c hc with hc | hc
      · exact hg.cells u name c hc
      · exact hc
  · simp [modifyScope]
  · rcases scope_modifyScope (h := h) s f u with hu | ⟨rfl, hu⟩
    · rw [hu]
    · rw [hu, hshape]

theorem keeps_setVariable (s : ScopeRef) (name : String) (v : Value) :
    Keeps ρ (·.setVariable s name v) h := by
  refine keeps_modifyScope ?_ fun scope _ n c hc => ?_
  · rintro (_ | _) <;> rfl
  · rcases scope with _ | _
    · cases hc
    · exact .inl hc

theorem keeps_eraseVariable (s : ScopeRef) (name : String) :
    Keeps ρ (·.eraseVariable s name) h := by
  refine keeps_modifyScope ?_ fun scope _ n c hc => ?_
  · rintro (_ | _) <;> rfl
  · rcases scope with _ | _
    · cases hc
    · exact .inl hc

theorem keeps_define (s : ScopeRef) (name : String) (v : Value) :
    Keeps ρ (·.define s name v) h := by
  unfold Keeps define
  dsimp only
  split
  · exact keeps_setVariable s name v
  · split
    · exact keeps_setCell _ v
    · exact fun hg => ⟨hg, .refl h⟩

/-- A local may be recorded in a register of the window of its activation. -/
theorem keeps_registerLocal {s : ScopeRef} {w : WindowRef} (name : String) {index : Nat}
    (hw : (h.scope s).shape.2 = some w) (hindex : index < (h.window w).size)
    (hout : (⟨w, index⟩ : Cell).Outside ρ) : Keeps ρ (·.registerLocal s name index) h := by
  refine keeps_modifyScope ?_ fun scope hs n c hc => ?_
  · rintro (_ | _) <;> rfl
  · rcases scope with ⟨parent, vars⟩ | ⟨parent, window, locals, upvalues⟩
    · cases hc
    · rw [hs] at hw
      obtain rfl : window = w := Option.some.inj hw
      simp only [Scope.register?, Std.HashMap.getElem?_insert] at hc ⊢
      by_cases hn : (name == n) = true
      · rw [if_pos hn] at hc
        cases hc
        exact .inr ⟨hindex, hout⟩
      · rw [if_neg hn] at hc
        exact .inl hc

theorem Guarded.enclosingCell {s : ScopeRef} {name : String} {c : Cell} (hg : h.Guarded ρ)
    (hc : h.enclosingCell? s name = some c) :
    c.index < (h.window c.window).size ∧ c.Outside ρ := by
  obtain ⟨u, -, hu⟩ := List.exists_of_findSome?_eq_some hc
  refine hg.cells u name c ?_
  unfold localCell? at hu
  rcases hs : h.scope u with ⟨parent, vars⟩ | ⟨parent, window, locals, upvalues⟩ <;> rw [hs] at hu
  · cases hu
  · obtain ⟨index, hi, rfl⟩ := Option.map_eq_some_iff.1 hu
    simp only [Scope.register?, hi]

theorem keeps_captureUpvalue (s : ScopeRef) (name : String) :
    Keeps ρ (·.captureUpvalue s name) h := by
  intro hg
  rcases hcell : h.enclosingCell? s name with _ | cell
  · simp only [captureUpvalue, hcell]
    exact ⟨hg, .refl h⟩
  · simp only [captureUpvalue, hcell]
    refine keeps_modifyScope ?_ (fun scope _ n c hc => ?_) hg
    · rintro (_ | _) <;> rfl
    · rcases scope with ⟨parent, vars⟩ | ⟨parent, window, locals, upvalues⟩
      · cases hc
      · simp only [Scope.register?, Std.HashMap.getElem?_insertIfNew] at hc ⊢
        rcases hlocal : locals[n]? with _ | index <;> rw [hlocal] at hc
        · dsimp only at hc ⊢
          split at hc
          · cases hc
            exact .inr (hg.enclosingCell hcell)
          · exact .inl hc
        · exact .inl hc

end Heap

end ScriptEngine
