import ScriptEngine.Proofs.Tame.Access
import ScriptEngine.Proofs.Window.Built

/-!
# Computations that keep windows as they are

`Heap.Leads h h'` says what every computation keeps: all code in the heap was built, and no window
changes its size. `Script.Contained h m Q` is a triple over a fixed heap `h` that leads to the one
where `m` starts. It also leads to the one where `m` ends, whether `m` succeeds, with a result of
which `Q` holds, or fails, and then not for a register outside of a window. What is known of the
windows of `h` therefore holds all along.

Tame computations are no help here: they start on heaps of compiled code and end without any fault
of the machine. Code that was merely built can cause all of these faults but one.

This module goes through the access of variables and members. No operation of this kind refers to
a register, and the only ones that run code are those that call a function of the heap.
-/

namespace ScriptEngine

/-- A function that is native or whose code was built. -/
def Function.Built (f : Function) : Prop :=
  ∀ c, f.body = .script c → c.Built

/-- A property whose functions were built. -/
structure Property.Built (p : Property) : Prop where
  getter : ∀ f, p.getter = some f → f.Built
  setter : ∀ f, p.setter = some f → f.Built

namespace Heap

/-- A heap whose code was built. -/
structure Built (h : Heap) : Prop where
  functions : ∀ f ∈ h.functions, f.Built
  properties : ∀ p ∈ h.properties, p.Built

theorem Guarded.built {h : Heap} {ρ : Option Region} (hg : h.Guarded ρ) : h.Built where
  functions := fun f hf c hc => .compiled (hg.functions f hf c hc)
  properties := fun p hp =>
    ⟨fun f hf c hc => .compiled ((hg.properties p hp).getter f hf c hc),
      fun f hf c hc => .compiled ((hg.properties p hp).setter f hf c hc)⟩

/-- All code of a later heap was built, and the windows that were there have the size they had. -/
structure Leads (h h' : Heap) : Prop where
  built : h'.Built
  count : h.windows.size ≤ h'.windows.size
  sizes : ∀ w : WindowRef, w.index < h.windows.size → (h'.window w).size = (h.window w).size

variable {h h₁ h₂ h₃ : Heap}

theorem Built.leads (hb : h.Built) : h.Leads h :=
  ⟨hb, le_refl _, fun _ _ => rfl⟩

theorem Leads.trans (h₁₂ : h₁.Leads h₂) (h₂₃ : h₂.Leads h₃) : h₁.Leads h₃ :=
  ⟨h₂₃.built, h₁₂.count.trans h₂₃.count, fun w hw =>
    (h₂₃.sizes w (hw.trans_le h₁₂.count)).trans (h₁₂.sizes w hw)⟩

theorem Built.function (hb : h.Built) (r : FunctionRef) : (h.function r).Built := by
  rw [Heap.function, Array.getD_eq_getD_getElem?]
  rcases hf : h.functions[r.index]? with _ | f
  · exact fun _ hc => by cases hc
  · exact hb.functions f (Array.mem_of_getElem? hf)

theorem Built.property (hb : h.Built) (r : PropertyRef) : (h.property r).Built := by
  rw [Heap.property, Array.getD_eq_getD_getElem?]
  rcases hp : h.properties[r.index]? with _ | p
  · constructor <;> intro f hf <;> cases hf
  · exact hb.properties p (Array.mem_of_getElem? hp)

/-- A change that leads from every heap whose code was built to another one. -/
def Mild (f : Heap → Heap) : Prop :=
  ∀ h : Heap, h.Built → h.Leads (f h)

/-- A change that leaves code and windows alone. -/
theorem mild_of_same {f : Heap → Heap} (hf : ∀ h, (f h).functions = h.functions ∧
    (f h).properties = h.properties ∧ (f h).windows = h.windows) : Mild f := by
  intro h hb
  obtain ⟨hfunctions, hproperties, hwindows⟩ := hf h
  refine ⟨⟨hfunctions ▸ hb.functions, hproperties ▸ hb.properties⟩, hwindows ▸ le_refl _,
    fun w _ => ?_⟩
  rw [window, window, hwindows]

theorem mild_newFunction {f : Function} (hf : f.Built) : Mild fun h => (h.newFunction f).2 := by
  refine fun h hb => ⟨⟨fun g hg => ?_, hb.properties⟩, le_refl _, fun _ _ => rfl⟩
  rcases Array.mem_push.1 hg with hg | rfl
  · exact hb.functions g hg
  · exact hf

theorem mild_newProperty {p : Property} (hp : p.Built) : Mild fun h => (h.newProperty p).2 := by
  refine fun h hb => ⟨⟨hb.functions, fun q hq => ?_⟩, le_refl _, fun _ _ => rfl⟩
  rcases Array.mem_push.1 hq with hq | rfl
  · exact hb.properties q hq
  · exact hp

theorem mild_newWindow (registers : Array Value) :
    Mild fun h => (h.newWindow registers).2 := by
  refine fun h hb => ⟨⟨hb.functions, hb.properties⟩, ?_, fun w hw => ?_⟩
  · simp only [newWindow, Array.size_push]
    exact Nat.le_succ _
  · rw [window_newWindow, if_neg hw.ne]

theorem mild_setCell (c : Cell) (v : Value) : Mild (·.setCell c v) :=
  fun _ hb => ⟨⟨hb.functions, hb.properties⟩, by simp [setCell],
    fun w _ => size_window_setCell c v w⟩

theorem mild_captureUpvalue (s : ScopeRef) (name : String) : Mild (·.captureUpvalue s name) := by
  refine mild_of_same fun h => ?_
  simp only [captureUpvalue]
  split <;> exact ⟨rfl, rfl, rfl⟩

end Heap

/-! ## Triples -/

/-- Whether a fault is for a register outside of a window. -/
def RuntimeFault.isOutside : RuntimeFault → Bool
  | .registerOutside _ => true
  | _ => false

/-- A failure that is not for a register outside of a window. -/
def Failure.Inside : Failure → Prop
  | .error e => ∀ cause, e.fault = .runtime cause → cause.isOutside = false
  | .exhausted => True

theorem Failure.Benign.inside {x : Failure} (hx : x.Benign) : x.Inside := by
  cases x with
  | error e =>
    intro cause hfault
    have hbenign := hx cause hfault
    cases cause with
    | registerOutside r => cases hbenign
    | _ => rfl
  | exhausted => trivial

namespace Script

/-- A computation that keeps windows as they are; see the head of the module. -/
def Contained {α : Type} (h : Heap) (m : Script α) (Q : α → Prop) : Prop :=
  ∀ e, h.Leads e.heap →
    match m e with
    | .ok a e' => h.Leads e'.heap ∧ Q a
    | .error x e' => h.Leads e'.heap ∧ x.Inside

variable {α β : Type} {h : Heap} {m : Script α} {Q : α → Prop} {R : β → Prop}

namespace Contained

theorem pure {a : α} (ha : Q a) : Contained h (pure a : Script α) Q :=
  fun _ he => ⟨he, ha⟩

theorem throw {x : Failure} (hx : x.Inside) : Contained h (throw x : Script α) Q :=
  fun _ he => ⟨he, hx⟩

theorem raise {cause : RuntimeFault} (hcause : cause.isOutside = false) :
    Contained h (raise cause : Script α) Q :=
  throw fun _ hfault => Fault.runtime.inj hfault ▸ hcause

theorem bind {k : α → Script β} (hm : Contained h m Q) (hk : ∀ a, Q a → Contained h (k a) R) :
    Contained h (m >>= k) R := by
  intro e he
  have hend := hm e he
  rw [bind_apply]
  rcases hme : m e with ⟨a, e₁⟩ | ⟨x, e₁⟩ <;> rw [hme] at hend
  · exact hk a hend.2 e₁ hend.1
  · exact hend

theorem map {f : α → β} (hm : Contained h m Q) : Contained h (f <$> m) fun _ => True :=
  hm.bind fun _ _ => pure trivial

theorem ite {c : Prop} [Decidable c] {m₁ m₂ : Script α} (h₁ : c → Contained h m₁ Q)
    (h₂ : ¬c → Contained h m₂ Q) : Contained h (if c then m₁ else m₂) Q := by
  split
  · exact h₁ ‹_›
  · exact h₂ ‹_›

/-- What is behind a failure does not run. -/
theorem raise_bind {cause : RuntimeFault} (hcause : cause.isOutside = false)
    (k : β → Script α) : Contained h ((Script.raise cause : Script β) >>= k) Q :=
  (raise (Q := fun _ => False) hcause).bind fun _ hfalse => hfalse.elim

/-- A check in front of a computation. -/
theorem check {c : Prop} [Decidable c] {cause : RuntimeFault}
    (hcause : cause.isOutside = false) (hm : Contained h m Q) :
    Contained h (if c then (Script.raise cause : Script β) >>= fun _ => m else m) Q :=
  ite (fun _ => raise_bind hcause _) fun _ => hm

/-- A change of the engine that leaves the heap alone. -/
theorem modify {f : Engine → Engine} (hf : ∀ e, (f e).heap = e.heap) :
    Contained h (modify f) fun _ => True :=
  fun e he => ⟨(hf e).symm ▸ he, trivial⟩

theorem get : Contained h get fun e => h.Leads e.heap :=
  fun _ he => ⟨he, he⟩

theorem getHeap : Contained h getHeap fun h' => h.Leads h' :=
  fun _ he => ⟨he, he⟩

theorem onHeap {f : Heap → α × Heap} (hf : Heap.Mild fun h => (f h).2) :
    Contained h (onHeap f) fun _ => True :=
  fun e he => ⟨he.trans (hf e.heap he.built), trivial⟩

theorem modifyHeap {f : Heap → Heap} (hf : Heap.Mild f) :
    Contained h (modifyHeap f) fun _ => True :=
  fun e he => ⟨he.trans (hf e.heap he.built), trivial⟩

/-- A computation behind one that succeeds, over the heap that this one leaves. -/
theorem bind_over {k : α → Script β}
    (hm : ∀ e : Engine, e.heap.Built →
      ∃ a e', m e = .ok a e' ∧ e.heap.Leads e'.heap ∧ Contained e'.heap (k a) R) :
    Contained h (m >>= k) R := by
  intro e he
  obtain ⟨a, e', hme, hleads, hk⟩ := hm e he.built
  have hend := hk e' hleads.built.leads
  rw [bind_apply, hme]
  dsimp only
  rcases hke : k a e' with ⟨b, e''⟩ | ⟨x, e''⟩ <;> rw [hke] at hend
  · exact ⟨(he.trans hleads).trans hend.1, hend.2⟩
  · exact ⟨(he.trans hleads).trans hend.1, hend.2⟩

/-- A change of the heap that leaves code and windows alone. -/
theorem modifyHeap_same {f : Heap → Heap} (hf : ∀ h, (f h).functions = h.functions ∧
    (f h).properties = h.properties ∧ (f h).windows = h.windows) :
    Contained h (Script.modifyHeap f) fun _ => True :=
  modifyHeap (Heap.mild_of_same hf)

theorem ofExcept {x : Except RuntimeFault α}
    (hx : ∀ cause, x = .error cause → cause.isInternal = false) :
    Contained h (ofExcept x) fun _ => True := by
  cases x with
  | error cause => exact throw (Failure.benign_runtime (hx cause rfl)).inside
  | ok a => exact pure trivial

theorem newArray (items : Array Value) : Contained h (newArray items) fun _ => True :=
  (onHeap (Heap.mild_of_same fun _ => ⟨rfl, rfl, rfl⟩)).bind fun _ _ => pure trivial

theorem newDict (entries : Dict) : Contained h (newDict entries) fun _ => True :=
  (onHeap (Heap.mild_of_same fun _ => ⟨rfl, rfl, rfl⟩)).bind fun _ _ => pure trivial

theorem newFunction {f : Function} (hf : f.Built) : Contained h (newFunction f) fun _ => True :=
  (onHeap (Heap.mild_newFunction hf)).bind fun _ _ => pure trivial

theorem newProperty {p : Property} (hp : p.Built) : Contained h (newProperty p) fun _ => True :=
  (onHeap (Heap.mild_newProperty hp)).bind fun _ _ => pure trivial

theorem textOf (v : Value) : Contained h (textOf v) fun _ => True :=
  getHeap.bind fun _ _ => pure trivial

theorem toNumber (v : Value) : Contained h (toNumber v) fun _ => True :=
  ofExcept fun _ => toNumber_error

theorem toInt (v : Value) : Contained h (toInt v) fun _ => True :=
  (ofExcept fun _ => toInt32_error).bind fun _ _ => pure trivial

theorem mapM {ι : Type} {g : ι → Script α} (hg : ∀ i, Contained h (g i) fun _ => True)
    (items : List ι) : Contained h (items.mapM g) fun _ => True := by
  induction items with
  | nil =>
    rw [List.mapM_nil]
    exact pure trivial
  | cons i items ih =>
    rw [List.mapM_cons]
    exact (hg i).bind fun _ _ => ih.bind fun _ _ => pure trivial

theorem array_mapM {ι : Type} {g : ι → Script α} (hg : ∀ i, Contained h (g i) fun _ => True)
    (items : Array ι) : Contained h (items.mapM g) fun _ => True := by
  rw [Array.mapM_eq_mapM_toList]
  exact (mapM hg _).map

theorem tracing (hm : Contained h m Q) (place : Position) : Contained h (tracing place m) Q := by
  intro e he
  have hend := hm e he
  unfold Script.tracing
  rcases hme : m e with ⟨a, e₁⟩ | ⟨_ | _, e₁⟩ <;> rw [hme] at hend
  · exact hend
  · exact hend
  · exact hend

/-- A change of the engine behind a computation, whether it fails or not. -/
theorem andThen (hm : Contained h m Q) {g : Engine → Engine}
    (hg : ∀ e : Engine, e.heap.Built → e.heap.Leads (g e).heap) : Contained h (andThen m g) Q := by
  intro e he
  have hend := hm e he
  unfold Script.andThen
  rcases hme : m e with ⟨a, e₁⟩ | ⟨x, e₁⟩ <;> rw [hme] at hend
  · exact ⟨hend.1.trans (hg e₁ hend.1.built), hend.2⟩
  · exact ⟨hend.1.trans (hg e₁ hend.1.built), hend.2⟩

end Contained

end Script

theorem Property.Built.bind {p : Property} (hp : p.Built) (receiver : Value) :
    (p.bind receiver).Built := by
  constructor
  · intro f hf
    obtain ⟨g, hg, rfl⟩ := Option.map_eq_some_iff.1 hf
    exact hp.getter g hg
  · intro f hf
    obtain ⟨g, hg, rfl⟩ := Option.map_eq_some_iff.1 hf
    exact hp.setter g hg

/-- Calls that keep windows as they are, if they run functions that were built. -/
def Invoke.Contained (call : Invoke) : Prop :=
  ∀ (h : Heap) (f : Function) (args : Array Value), f.Built →
    Script.Contained h (call f args) fun _ => True

namespace Script

variable {h : Heap} {call : Invoke}

/-! ## Properties -/

theorem contained_read (hcall : call.Contained) {p : Property} (hp : p.Built) :
    Contained h (p.read call) fun _ => True := by
  unfold Property.read
  split
  · exact hcall h _ _ (hp.getter _ ‹_›)
  · exact .raise rfl

theorem contained_write (hcall : call.Contained) {p : Property} (hp : p.Built) (v : Value) :
    Contained h (p.write call v) fun _ => True := by
  unfold Property.write
  split
  · exact (hcall h _ _ (hp.setter _ ‹_›)).map
  · exact .raise rfl

theorem contained_readThrough (hcall : call.Contained) (v : Value) :
    Contained h (readThrough call v) fun _ => True := by
  unfold readThrough
  split
  · exact Contained.getHeap.bind fun _ hh => contained_read hcall (hh.built.property _)
  · exact .pure trivial

theorem contained_readBound (hcall : call.Contained) (r : PropertyRef) (receiver : Value) :
    Contained h (readBound call r receiver) fun _ => True :=
  Contained.getHeap.bind fun _ hh => contained_read hcall ((hh.built.property r).bind receiver)

theorem contained_writeBound (hcall : call.Contained) (r : PropertyRef) (receiver v : Value) :
    Contained h (writeBound call r receiver v) fun _ => True :=
  Contained.getHeap.bind fun _ hh => contained_write hcall ((hh.built.property r).bind receiver) v

theorem contained_bindFunction (r : FunctionRef) (receiver : Value) :
    Contained h (bindFunction r receiver) fun _ => True :=
  Contained.getHeap.bind fun _ hh => .newFunction (hh.built.function r)

/-! ## Variables -/

theorem contained_getVariable (hcall : call.Contained) (s : ScopeRef) (name : String) :
    Contained h (getVariable call s name) fun _ => True := by
  rw [getVariable_eq]
  refine Contained.getHeap.bind fun _ _ => ?_
  split
  · exact contained_readThrough hcall _
  · exact .pure trivial

theorem contained_writeCell (hcall : call.Contained) (c : Cell) (v : Value) :
    Contained h (writeCell call c v) fun _ => True := by
  refine Contained.getHeap.bind fun _ _ => ?_
  split
  · exact Contained.getHeap.bind fun _ hh => contained_write hcall (hh.built.property _) v
  · exact .modifyHeap (Heap.mild_setCell c v)
  · exact .raise rfl

theorem contained_writePlace (hcall : call.Contained) (name : String) (v : Value) (place : Place) :
    Contained h (writePlace call name v place) fun _ => True := by
  cases place with
  | «variable» s =>
    refine Contained.getHeap.bind fun _ _ => ?_
    split
    · exact Contained.getHeap.bind fun _ hh => contained_write hcall (hh.built.property _) v
    · exact .modifyHeap_same fun _ => ⟨rfl, rfl, rfl⟩
  | register c => exact contained_writeCell hcall c v

theorem contained_setVariable (hcall : call.Contained) (s : ScopeRef) (name : String) (v : Value) :
    Contained h (setVariable call s name v) fun _ => True := by
  rw [setVariable_eq]
  refine Contained.getHeap.bind fun _ _ => ?_
  split
  · exact contained_writePlace hcall name v _
  · exact .ite (fun _ => .raise rfl) fun _ => .modifyHeap_same fun _ => ⟨rfl, rfl, rfl⟩

theorem contained_removeVariable (s : ScopeRef) (name : String) :
    Contained h (removeVariable s name) fun _ => True := by
  rw [removeVariable_eq]
  refine Contained.getHeap.bind fun _ _ => ?_
  split
  · exact .modifyHeap_same fun _ => ⟨rfl, rfl, rfl⟩
  · exact .raise rfl
  · exact .pure trivial

/-! ## Objects -/

theorem contained_getField (hcall : call.Contained) (c : ClassRef) (name : String) :
    Contained h (getField call c name) fun _ => True := by
  refine Contained.getHeap.bind fun _ _ => ?_
  split
  · exact contained_readBound hcall _ _
  · exact .pure trivial
  · split
    · exact contained_bindFunction _ _
    · exact contained_readBound hcall _ _
    · exact .pure trivial
    · exact .raise rfl

theorem contained_setField (hcall : call.Contained) (c : ClassRef) (name : String) (v : Value) :
    Contained h (setField call c name v) fun _ => True := by
  refine Contained.getHeap.bind fun _ _ => ?_
  split
  · exact contained_writeBound hcall _ _ v
  · exact .modifyHeap_same fun _ => ⟨rfl, rfl, rfl⟩

theorem contained_construct (args : Array Value) (made : HostConstructor) :
    Contained h (construct args made) fun _ => True := by
  cases made with
  | counter =>
    simp only [construct]
    split
    · exact (Contained.toInt _).bind fun _ _ => .pure trivial
    · exact .pure trivial
  | label => exact (Contained.textOf _).bind fun _ _ => .pure trivial
  | refuse => exact .raise rfl

theorem contained_instantiate {construct : ClassRef → HostConstructor → Script Payload}
    (hconstruct : ∀ d made, Contained h (construct d made) fun _ => True) (c : ClassRef) :
    Contained h (instantiate construct c) fun _ => True := by
  refine Contained.getHeap.bind fun h' _ => ?_
  have hmake : Contained h (do
      let payload ← (h'.classObject (h'.definingClass c)).constructor.mapM
        (construct (h'.definingClass c))
      return Value.classObj (← onHeap (·.newInstance (h'.definingClass c) payload)))
      fun _ => True := by
    refine Contained.bind (Q := fun _ => True) ?_ fun payload _ =>
      (Contained.onHeap (Heap.mild_of_same fun _ => ⟨rfl, rfl, rfl⟩)).bind fun _ _ => .pure trivial
    cases (h'.classObject (h'.definingClass c)).constructor with
    | none => exact .pure trivial
    | some made => exact (hconstruct _ made).map
  exact .ite (fun _ => hmake) fun _ => .raise_bind rfl _

theorem contained_payloadOf (v : Value) : Contained h (payloadOf v) fun _ => True := by
  unfold payloadOf
  split
  · refine Contained.getHeap.bind fun _ _ => ?_
    dsimp only
    split
    · exact .pure trivial
    · exact .raise rfl
  · exact .raise rfl

theorem contained_classNameOf (v : Value) : Contained h (classNameOf v) fun _ => True := by
  unfold classNameOf
  split
  · exact Contained.getHeap.bind fun _ _ => .pure trivial
  · exact .pure trivial

theorem contained_counterOf (v : Value) : Contained h (counterOf v) fun _ => True := by
  refine (contained_payloadOf v).bind fun payload _ => ?_
  split
  · exact .pure trivial
  · exact (contained_classNameOf v).bind fun _ _ => .raise rfl

theorem contained_labelOf (v : Value) : Contained h (labelOf v) fun _ => True := by
  refine (contained_payloadOf v).bind fun payload _ => ?_
  split
  · exact .pure trivial
  · exact (contained_classNameOf v).bind fun _ _ => .raise rfl

theorem contained_setCounter (v : Value) (n : Int) :
    Contained h (setCounter v n) fun _ => True := by
  unfold setCounter
  split
  · exact .modifyHeap_same fun _ => ⟨rfl, rfl, rfl⟩
  · exact .pure trivial

theorem contained_callValue (hcall : call.Contained) (callee : Value) (args : Array Value) :
    Contained h (callValue call callee args) fun _ => True := by
  unfold callValue
  split
  · exact Contained.getHeap.bind fun _ hh => hcall h _ args (hh.built.function _)
  · exact hcall h _ args nofun
  · exact .raise rfl

/-! ## Members -/

theorem contained_modifyArray (r : ArrayRef) (f : Array Value → Array Value) :
    Contained h (modifyHeap (·.modifyArray r f)) fun _ => True :=
  .modifyHeap_same fun _ => ⟨rfl, rfl, rfl⟩

theorem contained_getItem (r : ArrayRef) (i : Int) : Contained h (getItem r i) fun _ => True :=
  Contained.getHeap.bind fun _ _ => .pure trivial

theorem contained_setItem (r : ArrayRef) (i : Int) (v : Value) :
    Contained h (setItem r i v) fun _ => True :=
  Contained.get.bind fun _ _ => (Contained.ofExcept fun _ => writeIndex_error).bind fun _ _ =>
    contained_modifyArray r _

theorem contained_setLength (r : ArrayRef) (x : Number) :
    Contained h (setLength r x) fun _ => True :=
  Contained.get.bind fun _ _ => (Contained.ofExcept fun _ => lengthOf_error).bind fun _ _ =>
    contained_modifyArray r _

theorem contained_getCharacter (s : String) (i : Int) :
    Contained h (getCharacter s i) fun _ => True := by
  unfold getCharacter
  split
  · exact .pure trivial
  · exact .raise rfl

theorem contained_prototype? (v : Value) : Contained h (prototype? v) fun _ => True := by
  refine Contained.get.bind fun _ _ => ?_
  split <;> exact .pure trivial

theorem contained_prototypeMember? (v : Value) (name : String) :
    Contained h (prototypeMember? v name) fun _ => True :=
  Contained.getHeap.bind fun _ _ => (contained_prototype? v).bind fun _ _ => .pure trivial

theorem contained_boundMember? (hcall : call.Contained) (v : Value) (name : String) :
    Contained h (boundMember? call v name) fun _ => True := by
  refine (contained_prototypeMember? v name).bind fun found _ => ?_
  split
  · exact (contained_bindFunction _ v).map
  · exact (contained_readBound hcall _ v).map
  · exact .pure trivial

theorem contained_getNamed (hcall : call.Contained) (v : Value) (name : String) :
    Contained h (getNamed call v name) fun _ => True := by
  refine (contained_boundMember? hcall v name).bind fun found _ => ?_
  split
  · exact .pure trivial
  · split
    · exact contained_getItem _ _
    · exact contained_getCharacter _ _
    · exact .raise rfl

theorem contained_getEntry (hcall : call.Contained) (r : DictRef) (name : String) :
    Contained h (getEntry call r name) fun _ => True := by
  refine Contained.getHeap.bind fun _ _ => .ite (fun _ => .pure trivial) fun _ => ?_
  split
  · exact .pure trivial
  · exact (contained_boundMember? hcall _ name).bind fun _ _ => .pure trivial

theorem contained_setNamed (hcall : call.Contained) (v : Value) (name : String) (x : Value) :
    Contained h (setNamed call v name x) fun _ => True := by
  refine (contained_prototypeMember? v name).bind fun found _ => ?_
  split
  · exact contained_writeBound hcall _ v x
  · exact .raise rfl

theorem contained_getMember (hcall : call.Contained) (v key : Value) :
    Contained h (getMember call v key) fun _ => True := by
  refine Contained.getHeap.bind fun _ _ => ?_
  dsimp only
  split
  · exact contained_getItem _ _
  · exact .ite (fun _ => Contained.getHeap.bind fun _ _ => .pure trivial) fun _ =>
      contained_getNamed hcall _ _
  · exact contained_getEntry hcall _ _
  · exact contained_getCharacter _ _
  · exact contained_getNamed hcall _ _
  · exact contained_getNamed hcall _ _
  · exact .raise rfl
  · exact contained_getVariable hcall _ _
  · exact contained_getField hcall _ _
  · exact .raise rfl

theorem contained_setMember (hcall : call.Contained) (v key x : Value) :
    Contained h (setMember call v key x) fun _ => True := by
  refine Contained.getHeap.bind fun _ _ => ?_
  dsimp only
  split
  · exact .modifyHeap_same fun _ => ⟨rfl, rfl, rfl⟩
  · split
    · exact contained_setItem _ _ x
    · exact .ite (fun _ => (Contained.toNumber x).bind fun _ _ => contained_setLength _ _) fun _ =>
        contained_setNamed hcall _ _ x
  · exact contained_setNamed hcall _ _ x
  · exact contained_setNamed hcall _ _ x
  · exact contained_setVariable hcall _ _ x
  · exact contained_setField hcall _ _ x
  · exact .raise rfl

theorem contained_removeMember (v key : Value) :
    Contained h (removeMember v key) fun _ => True := by
  refine Contained.getHeap.bind fun _ _ => ?_
  dsimp only
  split
  · exact .modifyHeap_same fun _ => ⟨rfl, rfl, rfl⟩
  · split
    · split
      · exact contained_modifyArray _ _
      · exact .pure trivial
    · exact .raise rfl
  · exact contained_removeVariable _ _
  · exact .modifyHeap_same fun _ => ⟨rfl, rfl, rfl⟩
  · exact .raise rfl

end Script

end ScriptEngine
