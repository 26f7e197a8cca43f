import ScriptEngine.Machine
import ScriptEngine.Proofs.Tame.Frame

/-!
# Captured variables

A local of a frame can be used by the functions that were made in it, also when the frame is left.
Each activation of such a function is linked to the register of the local, so that all of them and
the frame itself share one cell.

**Owners.** `owner?` is the activation that a link goes to: the nearest enclosing one with a local
of the name. Linking does not change owners (`owner?_captureAll`), so links can be made in any
order.

**Actions.** What happens to the cell afterwards is a list of `CellAction`: writes by name through
a linked activation, writes of the register by the frame, and the end of the frame.

Main statement: `captured_cell_is_shared`.
-/

namespace ScriptEngine

namespace Heap

variable {h h' : Heap} {s u a : ScopeRef} {name : String} {c : Cell}

/-! ## Owners -/

/-- The activation that a link of a name goes to: the nearest enclosing one with a local of the
name, before any named scope. -/
def owner? (h : Heap) (s : ScopeRef) (name : String) : Option ScopeRef :=
  ((h.chain s).tail.takeWhile h.isActivation).find? fun a => (h.localCell? name a).isSome

theorem enclosingCell?_of_owner? (ha : h.owner? s name = some a) :
    h.enclosingCell? s name = h.localCell? name a := by
  unfold owner? at ha
  unfold enclosingCell?
  generalize (h.chain s).tail.takeWhile h.isActivation = scopes at ha ⊢
  induction scopes with
  | nil => cases ha
  | cons b scopes ih =>
    rw [List.find?_cons] at ha
    rw [List.findSome?_cons]
    rcases hb : h.localCell? name b with _ | c <;> rw [hb] at ha
    · exact ih ha
    · cases ha
      exact hb.symm

theorem localCell?_of_owner? (ha : h.owner? s name = some a) :
    ∃ c, h.localCell? name a = some c := by
  unfold owner? at ha
  have hsome := List.find?_some ha
  exact Option.isSome_iff_exists.1 hsome

/-- An activation that neither declares a name nor is linked to one. -/
def Ignores (h : Heap) (s : ScopeRef) (name : String) : Prop :=
  ∃ parent window locals upvalues, h.scope s = .activation parent window locals upvalues ∧
    locals[name]? = none ∧ upvalues[name]? = none

/-- An activation whose name is linked to a cell. -/
def Linked (h : Heap) (s : ScopeRef) (name : String) (c : Cell) : Prop :=
  ∃ parent window locals upvalues, h.scope s = .activation parent window locals upvalues ∧
    locals[name]? = none ∧ upvalues[name]? = some c

/-- Where the names of a linked activation are stored. -/
theorem Linked.place? (hs : h.Linked s name c) : h.place? s name = some (.register c) := by
  obtain ⟨parent, window, locals, upvalues, hscope, hlocal, hup⟩ := hs
  have hown : h.ownPlace? name s = some (.register c) := by
    simp only [ownPlace?, hscope, hlocal, hup, Option.map_some]
  rw [Heap.place?, chain, List.findSome?_cons, hown]

theorem Linked.storedIn (hs : h.Linked s name c) : h.StoredIn s name c :=
  storedIn_of_place? hs.place?

/-- What is looked up there, and what is read. -/
theorem Linked.lookup? (hs : h.Linked s name c) :
    h.lookup? s name = some ((h.cell? c).getD .void) := by
  obtain ⟨parent, window, locals, upvalues, hscope, hlocal, hup⟩ := hs
  rw [Heap.lookup?, hscope]
  dsimp only
  rw [hlocal, hup]

theorem Linked.bound? (hs : h.Linked s name c) :
    h.bound? s name = some ((h.cell? c).getD .void) := by
  rw [Heap.bound?, hs.place?]
  rfl

/-! ## Links -/

/-- Two heaps with the same tree of scopes, in which the same activations declare a name. -/
structure SameTree (name : String) (h h' : Heap) : Prop where
  parent : ∀ s, (h'.scope s).parent? = (h.scope s).parent?
  activation : h'.isActivation = h.isActivation
  cell : h'.localCell? name = h.localCell? name

theorem SameTree.refl (name : String) (h : Heap) : SameTree name h h :=
  ⟨fun _ => rfl, rfl, rfl⟩

theorem SameTree.chain (hsame : SameTree name h h') (s : ScopeRef) : h'.chain s = h.chain s := by
  fun_induction Heap.chain h s with
  | case1 s ih =>
    have henclosing : h'.enclosing? s = h.enclosing? s := by
      unfold Heap.enclosing?
      rw [hsame.parent]
    rw [Heap.chain, henclosing]
    congr 1
    split
    · exact ih _ ‹_›
    · rfl

theorem SameTree.owner? (hsame : SameTree name h h') (s : ScopeRef) :
    h'.owner? s name = h.owner? s name := by
  simp only [Heap.owner?, hsame.chain, hsame.activation, hsame.cell]

/-- A new link does not change the tree. -/
theorem sameTree_captureUpvalue (h : Heap) (u : ScopeRef) (name : String) :
    SameTree name h (h.captureUpvalue u name) := by
  unfold captureUpvalue
  rcases h.enclosingCell? u name with _ | c
  · exact .refl name h
  · refine ⟨fun s => ?_, funext fun s => ?_, funext fun s => ?_⟩ <;>
      simp only [isActivation, localCell?] <;>
      rcases scope_modifyScope (h := h) u _ s with hs | ⟨rfl, hs⟩ <;> rw [hs] <;>
      cases h.scope s <;> rfl

/-- What becomes of an activation that is changed. -/
theorem scope_modifyScope_self {parent : ScopeRef} {window : WindowRef}
    {locals : Std.HashMap String Nat} {upvalues : Std.HashMap String Cell}
    (hs : h.scope s = .activation parent window locals upvalues) (f : Scope → Scope) :
    (h.modifyScope s f).scope s = f (.activation parent window locals upvalues) := by
  simp only [scope, modifyScope, Array.getD_eq_getD_getElem?, Array.getElem?_modify] at hs ⊢
  rcases hscope : h.scopes[s.index]? with _ | scope <;> rw [hscope] at hs
  · cases hs
  · rw [← hs]
    rfl

/-- A link stays where it is. -/
theorem Linked.captureUpvalue (hs : h.Linked s name c) (u : ScopeRef) :
    (h.captureUpvalue u name).Linked s name c := by
  obtain ⟨parent, window, locals, upvalues, hscope, hlocal, hup⟩ := hs
  unfold Heap.captureUpvalue
  rcases h.enclosingCell? u name with _ | c'
  · exact ⟨parent, window, locals, upvalues, hscope, hlocal, hup⟩
  · rcases scope_modifyScope (h := h) u _ s with hs | ⟨rfl, hs⟩
    · exact ⟨parent, window, locals, upvalues, hs.trans hscope, hlocal, hup⟩
    · rw [hscope] at hs
      refine ⟨parent, window, locals, _, hs, hlocal, ?_⟩
      have hmem : name ∈ upvalues := by
        rw [← Std.HashMap.isSome_getElem?_iff_mem, hup]
        rfl
      rw [Std.HashMap.getElem?_insertIfNew, if_neg (by simp [hmem]), hup]

theorem Ignores.captureUpvalue_of_ne (hs : h.Ignores s name) (hne : s ≠ u) :
    (h.captureUpvalue u name).Ignores s name := by
  obtain ⟨parent, window, locals, upvalues, hscope, hlocal, hup⟩ := hs
  refine ⟨parent, window, locals, upvalues, ?_, hlocal, hup⟩
  unfold Heap.captureUpvalue
  rcases h.enclosingCell? u name with _ | c'
  · exact hscope
  · exact ((scope_modifyScope u _ s).resolve_right fun hs => hne hs.1).trans hscope

/-- The first link of an activation goes to the local of its owner. -/
theorem Ignores.captureUpvalue (hs : h.Ignores s name) (ha : h.owner? s name = some a)
    (hc : h.localCell? name a = some c) : (h.captureUpvalue s name).Linked s name c := by
  obtain ⟨parent, window, locals, upvalues, hscope, hlocal, hup⟩ := hs
  have hmem : ¬name ∈ upvalues := by
    rw [← Std.HashMap.isSome_getElem?_iff_mem, hup]
    exact Bool.false_ne_true
  refine ⟨parent, window, locals, upvalues.insertIfNew name c, ?_, hlocal, ?_⟩
  · simp only [Heap.captureUpvalue, enclosingCell?_of_owner? ha, hc, scope_modifyScope_self hscope]
  · rw [Std.HashMap.getElem?_insertIfNew, if_pos (by simp [hmem])]

/-- Links a name in activations, one after the other. -/
def captureAll (h : Heap) (frames : List ScopeRef) (name : String) : Heap :=
  frames.foldl (·.captureUpvalue · name) h

theorem windows_captureAll (frames : List ScopeRef) :
    (h.captureAll frames name).windows = h.windows := by
  induction frames generalizing h with
  | nil => rfl
  | cons u frames ih =>
    refine (ih (h := h.captureUpvalue u name)).trans ?_
    unfold captureUpvalue
    split <;> rfl

theorem Linked.captureAll (hs : h.Linked s name c) (frames : List ScopeRef) :
    (h.captureAll frames name).Linked s name c := by
  induction frames generalizing h with
  | nil => exact hs
  | cons u frames ih => exact ih (hs.captureUpvalue u)

/-- Every activation is linked to the local of its owner. -/
theorem Ignores.captureAll {frames : List ScopeRef} (hmem : s ∈ frames) (hs : h.Ignores s name)
    (ha : h.owner? s name = some a) (hc : h.localCell? name a = some c) :
    (h.captureAll frames name).Linked s name c := by
  induction frames generalizing h with
  | nil => cases hmem
  | cons u frames ih =>
    by_cases hu : s = u
    · subst hu
      exact (hs.captureUpvalue ha hc).captureAll frames
    · have hsame := sameTree_captureUpvalue h u name
      refine ih ((List.mem_cons.1 hmem).resolve_left hu) (hs.captureUpvalue_of_ne hu) ?_ ?_
      · rw [hsame.owner?, ha]
      · rw [hsame.cell, hc]

/-! ## Windows -/

/-- A tree of activations: each of them has a window of its own. -/
structure Apart (h : Heap) : Prop where
  windows : ∀ s w, (h.scope s).shape.2 = some w → w.index < h.windows.size
  own : ∀ s u w, (h.scope s).shape.2 = some w → (h.scope u).shape.2 = some w → s = u

theorem window_of_localCell? (hc : h.localCell? name s = some c) :
    (h.scope s).shape.2 = some c.window := by
  unfold localCell? at hc
  split at hc
  · obtain ⟨index, -, rfl⟩ := Option.map_eq_some_iff.1 hc
    rw [‹h.scope s = _›]
    rfl
  · cases hc

end Heap

/-! ## Actions -/

/-- What can happen to the cell of a local. -/
inductive CellAction where
  /-- The name is written through an activation. -/
  | assign (s : ScopeRef) (v : Value)
  /-- The register is written by its frame. -/
  | write (v : Value)
  /-- The frame is left, which clears its register 0. -/
  | leave

namespace CellAction

/-- What an action does, for a local of a frame. -/
def run (call : Invoke) (f : Frame) (r : Int) (name : String) : CellAction → Script Unit
  | .assign s v => Script.setVariable call s name v
  | .write v => f.write r v
  | .leave => Script.modifyHeap (·.setCell ⟨f.window, f.base⟩ .void)

def runAll (call : Invoke) (f : Frame) (r : Int) (name : String) (actions : List CellAction) :
    Script Unit :=
  actions.forM (run call f r name)

/-- The value that is in the cell afterwards. -/
def after (old : Value) : CellAction → Value
  | .assign _ v | .write v => v
  | .leave => old

/-- The value that was written last. -/
def latest (old : Value) (actions : List CellAction) : Value :=
  actions.foldl after old

/-- An action that writes no property, and writes by name through some activations only. -/
def Within (frames : ScopeRef → Prop) : CellAction → Prop
  | .assign s v => frames s ∧ ∀ p, v ≠ .property p
  | .write v => ∀ p, v ≠ .property p
  | .leave => True

end CellAction

/-- A frame has declared a name: it is a local in one of its registers, which is not register 0. -/
structure Frame.Declares (f : Frame) (h : Heap) (name : String) (r : Int) : Prop where
  registered : h.localCell? name f.activation = some (f.cell r)
  inside : 0 ≤ (f.base : Int) + r
  ne_zero : r ≠ 0

/-- The state of the cell of a local after some actions, `left` telling whether the frame was left:
the value `v` is in it, and no other register changed. -/
structure Frame.Shares (f : Frame) (r : Int) (left : Prop) (e : Engine) (v : Value) (e' : Engine) :
    Prop where
  scopes : e'.heap.scopes = e.heap.scopes
  value : e'.heap.cell? (f.cell r) = some v
  plain : ∀ p, v ≠ .property p
  others : ∀ c, c ≠ f.cell r → (c = f.cell 0 → ¬left) → e'.heap.cell? c = e.heap.cell? c

namespace Frame.Shares

variable {f : Frame} {r : Int} {left : Prop} {e e' : Engine} {v w : Value} {name : String}
  {call : Invoke}

theorem inside (h : f.Shares r left e v e') :
    (f.cell r).index < (e'.heap.window (f.cell r).window).size := by
  by_contra hn
  have hnone : e'.heap.cell? (f.cell r) = none := Array.getElem?_eq_none (Nat.not_lt.1 hn)
  rw [h.value] at hnone
  cases hnone

/-- The cell is written. -/
theorem setCell (h : f.Shares r left e v e') (hw : ∀ p, w ≠ .property p) :
    f.Shares r left e w { e' with heap := e'.heap.setCell (f.cell r) w } := by
  refine ⟨h.scopes, Heap.cell?_setCell_self h.inside w, hw, fun c hc hleft => ?_⟩
  rw [← h.others c hc hleft]
  show (e'.heap.setCell (f.cell r) w).cell? c = _
  rw [Heap.cell?_setCell, if_neg fun hcell => hc hcell.1.symm]

theorem cell_zero : f.cell 0 = ⟨f.window, f.base⟩ := by
  show (⟨f.window, ((f.base : Int) + 0).toNat⟩ : Cell) = _
  rw [Int.add_zero, Int.toNat_natCast]

theorem cell_ne_zero (hr : 0 ≤ (f.base : Int) + r) (hne : r ≠ 0) : f.cell 0 ≠ f.cell r := by
  intro hcell
  have hindex : ((f.base : Int) + 0).toNat = ((f.base : Int) + r).toNat := congrArg Cell.index hcell
  omega

/-- One action. -/
theorem run (call : Invoke) {owned : ScopeRef → Prop} {h : Heap}
    (hf : f.Declares h name r)
    (howned : ∀ s, owned s → e.heap.Linked s name (f.cell r)) {action : CellAction}
    (haction : action.Within owned) (hshares : f.Shares r left e v e')
    (hleft : action = .leave → left) :
    ∃ e'', action.run call f r name e' = .ok () e'' ∧ f.Shares r left e (action.after v) e'' := by
  cases action with
  | assign s w =>
    obtain ⟨hs, hw⟩ := haction
    refine ⟨_, ?_, hshares.setCell hw⟩
    have hlinked : e'.heap.Linked s name (f.cell r) := by
      obtain ⟨parent, window, locals, upvalues, hscope, hlinked⟩ := howned s hs
      exact ⟨parent, window, locals, upvalues, by rw [Heap.scope, hshares.scopes]; exact hscope,
        hlinked⟩
    show Script.setVariable call s name w e' = _
    rw [Script.setVariable_eq, Script.getHeap_bind_apply, hlinked.place?]
    dsimp only [Script.writePlace]
    unfold Script.writeCell
    rw [Script.getHeap_bind_apply, hshares.value]
    have hplain := hshares.plain
    cases v with
    | property p => exact absurd rfl (hplain p)
    | _ => rfl
  | write w =>
    refine ⟨_, ?_, hshares.setCell haction⟩
    have hinside := hshares.inside
    have hslot : f.slot r e' = .ok ((f.base : Int) + r).toNat e' := by
      show (if _ ∧ _ < ((e'.heap.window f.window).size : Int) then (pure _ : Script Nat)
        else Script.raise (.registerOutside r)) e' = _
      have hindex : ((f.base : Int) + r).toNat < (e'.heap.window f.window).size := hinside
      have hinside := hf.inside
      rw [if_pos ⟨hinside, by omega⟩]
      rfl
    show f.write r w e' = _
    rw [Frame.write, Script.bind_apply, hslot]
    rfl
  | leave =>
    refine ⟨_, rfl, hshares.scopes, ?_, hshares.plain, fun c hc hcleft => ?_⟩
    · show (e'.heap.setCell ⟨f.window, f.base⟩ .void).cell? (f.cell r) = _
      rw [Heap.cell?_setCell, if_neg fun hcell => cell_ne_zero hf.inside hf.ne_zero
        (cell_zero.trans hcell.1), hshares.value]
      rfl
    · rw [← hshares.others c hc hcleft]
      show (e'.heap.setCell ⟨f.window, f.base⟩ .void).cell? c = _
      rw [Heap.cell?_setCell, if_neg fun hcell => hcleft (hcell.1.symm.trans cell_zero.symm)
        (hleft rfl)]

/-- Any number of actions. -/
theorem runAll (call : Invoke) {owned : ScopeRef → Prop} {h : Heap}
    (hf : f.Declares h name r)
    (howned : ∀ s, owned s → e.heap.Linked s name (f.cell r)) {actions : List CellAction}
    (hactions : ∀ action ∈ actions, action.Within owned)
    (hleft : .leave ∈ actions → left) (hshares : f.Shares r left e v e') :
    ∃ e'', CellAction.runAll call f r name actions e' = .ok () e'' ∧
      f.Shares r left e (CellAction.latest v actions) e'' := by
  induction actions generalizing v e' with
  | nil => exact ⟨e', rfl, hshares⟩
  | cons action actions ih =>
    obtain ⟨e₁, hrun, hshares₁⟩ := hshares.run call hf howned
      (hactions action List.mem_cons_self) fun haction => hleft (haction ▸ List.mem_cons_self)
    obtain ⟨e₂, hrunAll, hshares₂⟩ := ih (fun a ha => hactions a (List.mem_cons_of_mem _ ha))
      (fun ha => hleft (List.mem_cons_of_mem _ ha)) hshares₁
    refine ⟨e₂, ?_, hshares₂⟩
    show (action.run call f r name >>= fun _ => CellAction.runAll call f r name actions) e' = _
    rw [Script.bind_apply, hrun]
    exact hrunAll

/-- What the frame reads. -/
theorem read (h : f.Shares r left e v e') (hr : 0 ≤ (f.base : Int) + r) :
    f.read r e' = .ok v e' :=
  Frame.read_of_cell? hr h.value

end Frame.Shares

/-- What reading a name gives, if it is no property. -/
theorem Script.getVariable_of_bound? {call : Invoke} {s : ScopeRef} {name : String} {v : Value}
    {e : Engine} (h : e.heap.bound? s name = some v) (hv : ∀ p, v ≠ .property p) :
    Script.getVariable call s name e = .ok v e := by
  rw [getVariable_eq, getHeap_bind_apply, h]
  cases v with
  | property p => exact absurd rfl (hv p)
  | _ => rfl

/-- A local of a frame, once activations that it belongs to are linked to it, is one cell for all
of them and the frame, also when the frame was left: each of them sees what was written last. No
other register changes but register 0 of the frame when it is left, and activations that are linked
to the local of another frame see nothing. -/
theorem captured_cell_is_shared {e : Engine} (he : e.heap.Apart) {f : Frame} {name : String}
    {r : Int} (hf : f.Declares e.heap name r) {v : Value}
    (hv : e.heap.cell? (f.cell r) = some v) (hplain : ∀ p, v ≠ .property p)
    {frames : List ScopeRef} (hframes : ∀ s ∈ frames, e.heap.Ignores s name)
    {actions : List CellAction}
    (hactions : ∀ action ∈ actions, action.Within fun s =>
      s ∈ frames ∧ e.heap.owner? s name = some f.activation) (call : Invoke) :
    ∃ e', CellAction.runAll call f r name actions
        { e with heap := e.heap.captureAll frames name } = .ok () e' ∧
      (∀ s ∈ frames, e.heap.owner? s name = some f.activation →
        Script.getVariable call s name e' = .ok (CellAction.latest v actions) e' ∧
          e'.heap.lookup? s name = some (CellAction.latest v actions)) ∧
      f.read r e' = .ok (CellAction.latest v actions) e' ∧
      (∀ c, c ≠ f.cell r → (c = f.cell 0 → .leave ∉ actions) →
        e'.heap.cell? c = e.heap.cell? c) ∧
      ∀ s ∈ frames, ∀ a, e.heap.owner? s name = some a → a ≠ f.activation →
        e'.heap.lookup? s name = (e.heap.captureAll frames name).lookup? s name := by
  set h₁ := e.heap.captureAll frames name
  have hcells : ∀ c, h₁.cell? c = e.heap.cell? c := by
    intro c
    simp only [Heap.cell?, Heap.window, h₁, Heap.windows_captureAll]
  have hlinked : ∀ s ∈ frames, ∀ a c, e.heap.owner? s name = some a →
      e.heap.localCell? name a = some c → h₁.Linked s name c :=
    fun s hs a c ha hc => (hframes s hs).captureAll hs ha hc
  have hstart : f.Shares r (.leave ∈ actions) { e with heap := h₁ } v { e with heap := h₁ } :=
    ⟨rfl, (hcells _).trans hv, hplain, fun _ _ _ => rfl⟩
  obtain ⟨e', hrun, hshares⟩ := hstart.runAll call hf
    (fun s hs => hlinked s hs.1 _ _ hs.2 hf.registered) hactions id
  have hlinked' : ∀ s c, h₁.Linked s name c → e'.heap.Linked s name c := by
    rintro s c ⟨parent, window, locals, upvalues, hscope, hs⟩
    exact ⟨parent, window, locals, upvalues, by rw [Heap.scope, hshares.scopes]; exact hscope, hs⟩
  refine ⟨e', hrun, fun s hs ha => ?_, hshares.read hf.inside, fun c hc hleft => ?_, ?_⟩
  · have hlinks := hlinked' s _ (hlinked s hs _ _ ha hf.registered)
    have hbound : e'.heap.bound? s name = some (CellAction.latest v actions) := by
      rw [hlinks.bound?, hshares.value, Option.getD_some]
    refine ⟨Script.getVariable_of_bound? hbound hshares.plain, ?_⟩
    rw [hlinks.lookup?, hshares.value, Option.getD_some]
  · rw [hshares.others c hc hleft]
    exact hcells c
  · intro s hs a ha hne
    -- The owner has another window, so the cell is neither the shared one nor the one cleared.
    obtain ⟨c, hc⟩ : ∃ c, e.heap.localCell? name a = some c :=
      Heap.localCell?_of_owner? ha
    have hwindow : c.window ≠ f.window := fun hw =>
      hne (he.own _ _ _ (Heap.window_of_localCell? hc) (by
        rw [Heap.window_of_localCell? hf.registered, hw]
        rfl))
    have hother : e'.heap.cell? c = h₁.cell? c :=
      hshares.others c (fun hcell => hwindow (congrArg Cell.window hcell))
        fun hcell => absurd (congrArg Cell.window hcell) hwindow
    rw [(hlinked' s c (hlinked s hs a c ha hc)).lookup?, (hlinked s hs a c ha hc).lookup?, hother]

/-- Two calls of a function that declares `x`: the first with two nested functions that use it, the
second with one. -/
def twoCalls : Engine where
  limits := {}
  heap :=
    { scopes := #[.named none ∅, .activation ⟨0⟩ ⟨0⟩ (({} : Std.HashMap String Nat).insert "x" 0) ∅,
        .activation ⟨1⟩ ⟨1⟩ ∅ ∅, .activation ⟨2⟩ ⟨2⟩ ∅ ∅,
        .activation ⟨0⟩ ⟨3⟩ (({} : Std.HashMap String Nat).insert "x" 0) ∅, .activation ⟨4⟩ ⟨4⟩ ∅ ∅]
      windows := #[#[.str "old", .void], #[], #[], #[.str "other", .void], #[]] }
  globalScope := ⟨0⟩
  numberClass := ⟨0⟩
  stringClass := ⟨0⟩
  arrayClass := ⟨0⟩
  dictClass := ⟨0⟩

theorem apart_twoCalls : twoCalls.heap.Apart := by
  constructor
  · rintro ⟨s⟩ w hw
    rcases s with _ | _ | _ | _ | _ | _ | s <;> cases hw <;> decide
  · rintro ⟨s⟩ ⟨u⟩ w hs hu
    rcases s with _ | _ | _ | _ | _ | _ | s <;> cases hs <;>
      rcases u with _ | _ | _ | _ | _ | _ | u <;> first | rfl | cases hu

/-- A write by each nested function, one by the frame between them, and the frame left: both
nested functions read the last write, and the other call does not. -/
theorem captured_cell_is_shared_twice : ∃ e' : Engine,
    CellAction.runAll (callWithin 0) ⟨.empty none, ⟨0⟩, ⟨1⟩, 1⟩ (-1) "x"
      [.assign ⟨2⟩ (.str "a"), .write (.str "b"), .leave, .assign ⟨3⟩ (.str "c")]
      { twoCalls with heap := twoCalls.heap.captureAll [⟨2⟩, ⟨3⟩, ⟨5⟩] "x" } = .ok () e' ∧
    Script.getVariable (callWithin 0) ⟨2⟩ "x" e' = .ok (.str "c") e' ∧
    e'.heap.lookup? ⟨5⟩ "x" = (twoCalls.heap.captureAll [⟨2⟩, ⟨3⟩, ⟨5⟩] "x").lookup? ⟨5⟩ "x" := by
  have hchains : twoCalls.heap.chain ⟨2⟩ = [⟨2⟩, ⟨1⟩, ⟨0⟩] ∧
      twoCalls.heap.chain ⟨3⟩ = [⟨3⟩, ⟨2⟩, ⟨1⟩, ⟨0⟩] ∧ twoCalls.heap.chain ⟨5⟩ = [⟨5⟩, ⟨4⟩, ⟨0⟩] := by
    have hroot : twoCalls.heap.chain ⟨0⟩ = [⟨0⟩] := Heap.chain_of_root rfl
    have hstep (s p : ScopeRef) := @Heap.chain_of_parent twoCalls.heap s p
    have hfirst := (hstep ⟨1⟩ ⟨0⟩ rfl (by decide)).trans (congrArg _ hroot)
    have hnested := (hstep ⟨2⟩ ⟨1⟩ rfl (by decide)).trans (congrArg _ hfirst)
    have hsecond := (hstep ⟨4⟩ ⟨0⟩ rfl (by decide)).trans (congrArg _ hroot)
    exact ⟨hnested, (hstep ⟨3⟩ ⟨2⟩ rfl (by decide)).trans (congrArg _ hnested),
      (hstep ⟨5⟩ ⟨4⟩ rfl (by decide)).trans (congrArg _ hsecond)⟩
  have howner : ∀ s ∈ [(⟨2⟩ : ScopeRef), ⟨3⟩], twoCalls.heap.owner? s "x" = some ⟨1⟩ := by
    simp only [List.mem_cons, List.not_mem_nil, or_false]
    rintro s (rfl | rfl)
    · rw [Heap.owner?, hchains.1]
      simp [Heap.scope, twoCalls, Heap.isActivation, Heap.localCell?]
    · rw [Heap.owner?, hchains.2.1]
      simp [Heap.scope, twoCalls, Heap.isActivation, Heap.localCell?]
  have hother : twoCalls.heap.owner? ⟨5⟩ "x" = some ⟨4⟩ := by
    rw [Heap.owner?, hchains.2.2]
    simp [Heap.scope, twoCalls, Heap.isActivation, Heap.localCell?]
  have hf : (⟨.empty none, ⟨0⟩, ⟨1⟩, 1⟩ : Frame).Declares twoCalls.heap "x" (-1) := by
    refine ⟨?_, by decide, by decide⟩
    simp [Heap.localCell?, Heap.scope, twoCalls, Frame.cell]
  have hframes : ∀ s ∈ [(⟨2⟩ : ScopeRef), ⟨3⟩, ⟨5⟩], twoCalls.heap.Ignores s "x" := by
    simp only [List.mem_cons, List.not_mem_nil, or_false]
    rintro s (rfl | rfl | rfl) <;> exact ⟨_, _, _, _, rfl, by simp, by simp⟩
  have hactions : ∀ action ∈ [CellAction.assign ⟨2⟩ (.str "a"), .write (.str "b"), .leave,
      .assign ⟨3⟩ (.str "c")], action.Within fun s =>
        s ∈ [(⟨2⟩ : ScopeRef), ⟨3⟩, ⟨5⟩] ∧ twoCalls.heap.owner? s "x" = some ⟨1⟩ := by
    simp only [List.mem_cons, List.not_mem_nil, or_false]
    rintro action (rfl | rfl | rfl | rfl)
    · exact ⟨⟨by simp, howner _ (by simp)⟩, fun _ => Value.noConfusion⟩
    · exact fun _ => Value.noConfusion
    · exact trivial
    · exact ⟨⟨by simp, howner _ (by simp)⟩, fun _ => Value.noConfusion⟩
  obtain ⟨e', hrun, hlinked, -, -, hapart⟩ :=
    captured_cell_is_shared apart_twoCalls hf rfl (fun _ => Value.noConfusion) hframes hactions
      (callWithin 0)
  exact ⟨e', hrun, (hlinked ⟨2⟩ (by simp) (howner _ (by simp))).1,
    hapart ⟨5⟩ (by simp) ⟨4⟩ hother (by decide)⟩

end ScriptEngine
