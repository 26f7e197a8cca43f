import ScriptEngine.Engine
import ScriptEngine.Proofs.Guarded

/-!
# Tame computations

A computation on an engine is *tame* if it keeps the heap guarded, keeps what is in the heap, does
not fail by a fault that only ill-formed code can cause, and commutes with a graft: replacing the
contents of a shut region first and running it then is the same as running it first. So a tame
computation neither reads nor writes a register of the region.

`Tame ρ P m Q` is a triple: the computation `m`, started on a guarded heap where `P` holds, is
tame, and `Q` holds of its result if it succeeds. Tame computations compose (`Tame.bind`).
-/

namespace ScriptEngine

/-! ## Faults of the machine -/

/-- The faults that code cannot cause if it is well formed. -/
def RuntimeFault.isInternal : RuntimeFault → Bool
  | .registerOutside _ | .constantOutside _ | .nameExpected _ | .jumpTarget _
  | .templateExpected | .functionToBindExpected | .slotOutOfRange | .offBoundary .. => true
  | _ => false

/-- A failure that is no fault of the machine. -/
def Failure.Benign : Failure → Prop
  | .error e => ∀ cause, e.fault = .runtime cause → cause.isInternal = false
  | .exhausted => True

theorem Failure.OfText.benign {f : Failure} (hf : f.OfText) : f.Benign := by
  cases f with
  | error e => exact fun cause h => absurd h (hf.1 cause)
  | exhausted => trivial

theorem Failure.benign_runtime {cause : RuntimeFault} (h : cause.isInternal = false) :
    (Failure.runtime cause).Benign := by
  intro cause' heq
  cases heq
  exact h

/-! ## Triples -/

def Engine.graft (ρ : Option Region) (t : Nat → Value) (e : Engine) : Engine :=
  { e with heap := e.heap.graft ρ t }

/-- How a computation on an engine ends. -/
abbrev Outcome (α : Type) := EStateM.Result Failure Engine α

/-- The same end with another engine. -/
def Outcome.onEngine {α : Type} (g : Engine → Engine) : Outcome α → Outcome α
  | .ok a e => .ok a (g e)
  | .error f e => .error f (g e)

/-- The engine that a computation leaves. -/
def Outcome.engine {α : Type} : Outcome α → Engine
  | .ok _ e => e
  | .error _ e => e

/-- An end that is allowed for a computation that started on a heap. -/
structure Outcome.Allowed {α : Type} (ρ : Option Region) (h : Heap) (Q : α → Engine → Prop)
    (o : Outcome α) : Prop where
  guarded : o.engine.heap.Guarded ρ
  extends_ : h.Extends o.engine.heap
  benign : ∀ f e, o = .error f e → f.Benign
  result : ∀ a e, o = .ok a e → Q a e

theorem Outcome.allowed_ok {α : Type} {ρ : Option Region} {h : Heap} {Q : α → Engine → Prop}
    {a : α} {e : Engine} (hg : e.heap.Guarded ρ) (hx : h.Extends e.heap) (hQ : Q a e) :
    Outcome.Allowed ρ h Q (.ok a e) :=
  ⟨hg, hx, fun _ _ heq => (by cases heq), fun _ _ heq => by cases heq; exact hQ⟩

theorem Outcome.allowed_error {α : Type} {ρ : Option Region} {h : Heap} {Q : α → Engine → Prop}
    {f : Failure} {e : Engine} (hg : e.heap.Guarded ρ) (hx : h.Extends e.heap) (hf : f.Benign) :
    Outcome.Allowed ρ h Q (.error f e : Outcome α) :=
  ⟨hg, hx, fun _ _ heq => (by cases heq; exact hf), fun _ _ heq => by cases heq⟩

namespace Script

/-- A tame computation; see the head of the module. -/
def Tame {α : Type} (ρ : Option Region) (P : Engine → Prop) (m : Script α)
    (Q : α → Engine → Prop) : Prop :=
  ∀ e, e.heap.Guarded ρ → P e → Outcome.Allowed ρ e.heap Q (m e) ∧
    ∀ t, m (e.graft ρ t) = Outcome.onEngine (Engine.graft ρ t) (m e)

/-- A computation that is tame on every guarded heap. -/
def Calm {α : Type} (ρ : Option Region) (m : Script α) : Prop :=
  Tame ρ (fun _ => True) m fun _ _ => True

theorem bind_apply {α β : Type} (m : Script α) (k : α → Script β) (e : Engine) :
    (m >>= k) e = match m e with
      | .ok a e' => k a e'
      | .error f e' => .error f e' := by
  change EStateM.bind m k e = _
  unfold EStateM.bind
  rcases m e with ⟨a, e₁⟩ | ⟨f, e₁⟩ <;> rfl

theorem get_bind_apply {β : Type} (k : Engine → Script β) (e : Engine) : (get >>= k) e = k e e :=
  rfl

/-- A property of engines that lasts while computations run. -/
def Lasting (P : Engine → Prop) : Prop :=
  ∀ e e' : Engine, e.heap.Extends e'.heap → P e → P e'

namespace Tame

variable {α β : Type} {ρ : Option Region} {P P' : Engine → Prop} {Q Q' : α → Engine → Prop}
  {R : β → Engine → Prop} {m : Script α}

theorem pure {a : α} (h : ∀ e, P e → Q a e) : Tame ρ P (pure a : Script α) Q :=
  fun e hg hP => ⟨Outcome.allowed_ok hg (.refl _) (h e hP), fun _ => rfl⟩

theorem throw {f : Failure} (hf : f.Benign) : Tame ρ P (throw f : Script α) Q :=
  fun _ hg _ => ⟨Outcome.allowed_error hg (.refl _) hf, fun _ => rfl⟩

theorem raise {cause : RuntimeFault} (h : cause.isInternal = false) :
    Tame ρ P (raise cause : Script α) Q :=
  throw (Failure.benign_runtime h)

theorem bind {k : α → Script β} (hm : Tame ρ P m Q) (hk : ∀ a, Tame ρ (Q a) (k a) R) :
    Tame ρ P (m >>= k) R := by
  intro e hg hP
  obtain ⟨hallow, hgraft⟩ := hm e hg hP
  simp only [bind_apply]
  rcases hme : m e with ⟨a, e₁⟩ | ⟨f, e₁⟩ <;> rw [hme] at hallow hgraft
  · obtain ⟨hallow₂, hgraft₂⟩ := hk a e₁ hallow.guarded (hallow.result a e₁ rfl)
    refine ⟨⟨hallow₂.guarded, hallow.extends_.trans hallow₂.extends_, hallow₂.benign,
      hallow₂.result⟩, fun t => ?_⟩
    rw [hgraft t]
    exact hgraft₂ t
  · refine ⟨Outcome.allowed_error hallow.guarded hallow.extends_ (hallow.benign f e₁ rfl),
      fun t => ?_⟩
    rw [hgraft t]
    rfl

theorem consequence (h : Tame ρ P m Q) (hP : ∀ e, P' e → P e) (hQ : ∀ a e, Q a e → Q' a e) :
    Tame ρ P' m Q' := by
  intro e hg hp
  obtain ⟨hallow, hgraft⟩ := h e hg (hP e hp)
  exact ⟨⟨hallow.guarded, hallow.extends_, hallow.benign,
    fun a e' heq => hQ a e' (hallow.result a e' heq)⟩, hgraft⟩

/-- A fact that holds whatever the engine is can be assumed. -/
theorem assume {F : Prop} (h : F → Tame ρ P m Q) : Tame ρ (fun e => F ∧ P e) m Q :=
  fun e hg hp => h hp.1 e hg hp.2

theorem ite {c : Prop} [Decidable c] {m₁ m₂ : Script α} (h₁ : c → Tame ρ P m₁ Q)
    (h₂ : ¬c → Tame ρ P m₂ Q) : Tame ρ P (if c then m₁ else m₂) Q := by
  split
  · exact h₁ ‹_›
  · exact h₂ ‹_›

/-- Carries a lasting property past a computation. -/
theorem carry (h : Tame ρ (fun _ => True) m Q) (hP : Lasting P) :
    Tame ρ P m fun a e => Q a e ∧ P e := by
  intro e hg hp
  obtain ⟨hallow, hgraft⟩ := h e hg trivial
  refine ⟨⟨hallow.guarded, hallow.extends_, hallow.benign, fun a e' heq => ?_⟩, hgraft⟩
  refine ⟨hallow.result a e' heq, hP e e' ?_ hp⟩
  have hext := hallow.extends_
  rwa [heq] at hext

/-! ## Reading the engine -/

/-- Reading the engine is tame if what follows cannot see the region. -/
theorem get_bind {k : Engine → Script β}
    (hgraft : ∀ e t, e.heap.Guarded ρ → P e → k (e.graft ρ t) = k e)
    (hk : ∀ e, e.heap.Guarded ρ → P e → Tame ρ (· = e) (k e) R) : Tame ρ P (get >>= k) R := by
  intro e hg hP
  obtain ⟨hallow, hcomm⟩ := hk e hg hP e hg rfl
  refine ⟨hallow, fun t => ?_⟩
  show k (e.graft ρ t) (e.graft ρ t) = _
  rw [hgraft e t hg hP]
  exact hcomm t

theorem getHeap_bind {k : Heap → Script β}
    (hgraft : ∀ h t, h.Guarded ρ → k (h.graft ρ t) = k h)
    (hk : ∀ h, h.Guarded ρ → Tame ρ (fun e => P e ∧ e.heap = h) (k h) R) :
    Tame ρ P (getHeap >>= k) R := by
  intro e hg hP
  obtain ⟨hallow, hcomm⟩ := hk e.heap hg e hg ⟨hP, rfl⟩
  refine ⟨hallow, fun t => ?_⟩
  show k (e.heap.graft ρ t) (e.graft ρ t) = _
  rw [hgraft _ t hg]
  exact hcomm t

/-- Reading the heap where nothing is asked about it later. -/
theorem ofHeap {k : Heap → Script β} (hgraft : ∀ h t, h.Guarded ρ → k (h.graft ρ t) = k h)
    (hk : ∀ h, h.Guarded ρ → Tame ρ P (k h) R) : Tame ρ P (getHeap >>= k) R :=
  getHeap_bind hgraft fun h hg => (hk h hg).consequence (fun _ h => h.1) fun _ _ h => h

/-! ## Writing the engine -/

/-- The rule of a change of the heap. -/
theorem modifyHeap {f : Heap → Heap} {Q : Engine → Prop}
    (hgraft : ∀ h t, h.Guarded ρ → f (h.graft ρ t) = (f h).graft ρ t)
    (hkeeps : ∀ e : Engine, e.heap.Guarded ρ → P e → Heap.Keeps ρ f e.heap)
    (hQ : ∀ e, e.heap.Guarded ρ → P e → e.heap.Extends (f e.heap) →
      Q { e with heap := f e.heap }) :
    Tame ρ P (modifyHeap f) fun _ => Q := by
  intro e hg hP
  obtain ⟨hg', hx⟩ := hkeeps e hg hP hg
  refine ⟨Outcome.allowed_ok hg' hx (hQ e hg hP hx), fun t => ?_⟩
  show EStateM.Result.ok () { e.graft ρ t with heap := f (e.heap.graft ρ t) } = _
  rw [hgraft _ t hg]
  rfl

/-- The rule of a new object. -/
theorem onHeap {f : Heap → α × Heap}
    (hgraft : ∀ h t, h.Guarded ρ → f (h.graft ρ t) = ((f h).1, (f h).2.graft ρ t))
    (hkeeps : ∀ e : Engine, e.heap.Guarded ρ → P e → Heap.Keeps ρ (fun h => (f h).2) e.heap)
    (hQ : ∀ e, e.heap.Guarded ρ → P e → e.heap.Extends (f e.heap).2 →
      Q (f e.heap).1 { e with heap := (f e.heap).2 }) :
    Tame ρ P (onHeap f) Q := by
  intro e hg hP
  obtain ⟨hg', hx⟩ := hkeeps e hg hP hg
  refine ⟨Outcome.allowed_ok hg' hx (hQ e hg hP hx), fun t => ?_⟩
  show EStateM.Result.ok (f (e.heap.graft ρ t)).1
    { e.graft ρ t with heap := (f (e.heap.graft ρ t)).2 } = _
  rw [hgraft _ t hg]
  rfl

/-- A change of the engine besides its heap. -/
theorem modify {f : Engine → Engine} (hf : ∀ e, (f e).heap = e.heap)
    (hgraft : ∀ e t, f (e.graft ρ t) = (f e).graft ρ t) :
    Calm ρ (modify f : Script Unit) := by
  intro e hg _
  refine ⟨Outcome.allowed_ok ?_ ?_ trivial, fun t => ?_⟩
  · show (f e).heap.Guarded ρ
    rwa [hf]
  · show e.heap.Extends (f e).heap
    rw [hf]
    exact .refl _
  · show EStateM.Result.ok () (f (e.graft ρ t)) = _
    rw [hgraft]
    rfl

theorem tracing (h : Tame ρ P m Q) (place : Position) : Tame ρ P (tracing place m) Q := by
  intro e hg hP
  obtain ⟨hallow, hgraft⟩ := h e hg hP
  unfold Script.tracing
  simp only [hgraft]
  rcases hme : m e with ⟨a, e₁⟩ | ⟨_ | _, e₁⟩ <;> rw [hme] at hallow
  · exact ⟨hallow, fun _ => rfl⟩
  · have hbenign := hallow.benign _ _ rfl
    exact ⟨Outcome.allowed_error hallow.guarded hallow.extends_ hbenign, fun _ => rfl⟩
  · exact ⟨Outcome.allowed_error hallow.guarded hallow.extends_ trivial, fun _ => rfl⟩

/-- A change of the engine behind a computation, whether it fails or not. -/
theorem andThen (h : Tame ρ P m Q) {g : Engine → Engine}
    (hgraft : ∀ e t, g (e.graft ρ t) = (g e).graft ρ t)
    (hkeeps : ∀ e : Engine, e.heap.Guarded ρ → (g e).heap.Guarded ρ ∧ e.heap.Extends (g e).heap) :
    Tame ρ P (andThen m g) fun _ _ => True := by
  intro e hg hP
  obtain ⟨hallow, hcomm⟩ := h e hg hP
  unfold Script.andThen
  simp only [hcomm]
  rcases hme : m e with ⟨a, e₁⟩ | ⟨f, e₁⟩ <;> rw [hme] at hallow
  · obtain ⟨hg', hx⟩ := hkeeps e₁ hallow.guarded
    refine ⟨Outcome.allowed_ok hg' (hallow.extends_.trans hx) trivial, fun t => ?_⟩
    simp only [Outcome.onEngine, hgraft]
  · obtain ⟨hg', hx⟩ := hkeeps e₁ hallow.guarded
    refine ⟨Outcome.allowed_error hg' (hallow.extends_.trans hx) (hallow.benign _ _ rfl),
      fun t => ?_⟩
    simp only [Outcome.onEngine, hgraft]

end Tame

/-! ## Calm computations -/

namespace Calm

variable {α β : Type} {ρ : Option Region} {P : Engine → Prop} {m : Script α}

theorem tame (h : Calm ρ m) : Tame ρ P m fun _ _ => True :=
  h.consequence (fun _ _ => trivial) fun _ _ h => h

theorem pure (a : α) : Calm ρ (pure a : Script α) :=
  Tame.pure fun _ _ => trivial

theorem raise {cause : RuntimeFault} (h : cause.isInternal = false) :
    Calm ρ (raise cause : Script α) :=
  Tame.raise h

theorem bind {k : α → Script β} (hm : Calm ρ m) (hk : ∀ a, Calm ρ (k a)) : Calm ρ (m >>= k) :=
  Tame.bind hm hk

theorem map {f : α → β} (hm : Calm ρ m) : Calm ρ (f <$> m) :=
  hm.bind fun a => pure (f a)

theorem ite {c : Prop} [Decidable c] {m₁ m₂ : Script α} (h₁ : Calm ρ m₁) (h₂ : Calm ρ m₂) :
    Calm ρ (if c then m₁ else m₂) :=
  Tame.ite (fun _ => h₁) fun _ => h₂

/-- Reading the heap, where what follows cannot see the region. -/
theorem ofHeap {k : Heap → Script β} (hgraft : ∀ h t, h.Guarded ρ → k (h.graft ρ t) = k h)
    (hk : ∀ h, h.Guarded ρ → Calm ρ (k h)) : Calm ρ (getHeap >>= k) :=
  Tame.ofHeap hgraft hk

theorem get_bind {k : Engine → Script β} (hgraft : ∀ e t, k (e.graft ρ t) = k e)
    (hk : ∀ e, Calm ρ (k e)) : Calm ρ (get >>= k) :=
  Tame.get_bind (fun e t _ _ => hgraft e t) fun e _ _ => (hk e).tame

/-- The rule of a change of the heap. -/
theorem modifyHeap {f : Heap → Heap} (hgraft : ∀ h t, f (h.graft ρ t) = (f h).graft ρ t)
    (hkeeps : ∀ h, Heap.Keeps ρ f h) : Calm ρ (modifyHeap f) :=
  Tame.modifyHeap (fun h t _ => hgraft h t) (fun e _ _ => hkeeps e.heap) fun _ _ _ _ => trivial

/-- A change of the heap that leaves code, scopes and windows alone. -/
theorem modifyHeap_same {f : Heap → Heap} (hgraft : ∀ h t, f (h.graft ρ t) = (f h).graft ρ t)
    (h : ∀ h, (f h).functions = h.functions ∧ (f h).properties = h.properties ∧
      (f h).scopes = h.scopes ∧ (f h).windows = h.windows) : Calm ρ (Script.modifyHeap f) :=
  modifyHeap hgraft fun h' => Heap.keeps_of_same (h h').1 (h h').2.1 (h h').2.2.1 (h h').2.2.2

theorem onHeap {f : Heap → α × Heap}
    (hgraft : ∀ h t, h.Guarded ρ → f (h.graft ρ t) = ((f h).1, (f h).2.graft ρ t))
    (hkeeps : ∀ h, Heap.Keeps ρ (fun h => (f h).2) h) : Calm ρ (onHeap f) :=
  Tame.onHeap hgraft (fun e _ _ => hkeeps e.heap) fun _ _ _ _ => trivial

end Calm

section

variable {ρ : Option Region}

theorem calm_ofExcept {α : Type} {x : Except RuntimeFault α}
    (h : ∀ cause, x = .error cause → cause.isInternal = false) : Calm ρ (ofExcept x) := by
  cases x with
  | error cause => exact .raise (h cause rfl)
  | ok a => exact .pure a

theorem calm_newArray (items : Array Value) : Calm ρ (newArray items) :=
  (Calm.onHeap (fun _ _ _ => rfl) fun _ => Heap.keeps_of_same rfl rfl rfl rfl).bind
    fun _ => .pure _

theorem calm_newDict (entries : Dict) : Calm ρ (newDict entries) :=
  (Calm.onHeap (fun _ _ _ => rfl) fun _ => Heap.keeps_of_same rfl rfl rfl rfl).bind
    fun _ => .pure _

theorem calm_newFunction {f : Function} (hf : f.Compiled) : Calm ρ (newFunction f) :=
  (Calm.onHeap (fun _ _ _ => rfl) fun _ => Heap.keeps_newFunction hf).bind fun _ => .pure _

theorem calm_newProperty {p : Property} (hp : p.Compiled) : Calm ρ (newProperty p) :=
  (Calm.onHeap (fun _ _ _ => rfl) fun _ => Heap.keeps_newProperty hp).bind fun _ => .pure _

theorem toNumber_error {v : Value} {cause : RuntimeFault} (h : v.toNumber = .error cause) :
    cause.isInternal = false := by
  cases v <;> cases h <;> rfl

theorem toInt32_error {v : Value} {cause : RuntimeFault} (h : v.toInt32 = .error cause) :
    cause.isInternal = false := by
  unfold Value.toInt32 at h
  rcases hn : v.toNumber with c | x <;> rw [hn] at h <;> cases h
  exact toNumber_error hn

theorem calm_toNumber (v : Value) : Calm ρ (toNumber v) :=
  calm_ofExcept fun _ => toNumber_error

theorem calm_toInt (v : Value) : Calm ρ (toInt v) :=
  (calm_ofExcept fun _ => toInt32_error).bind fun _ => .pure _

theorem calm_textOf (v : Value) : Calm ρ (textOf v) :=
  .ofHeap (fun _ _ _ => by simp only [Heap.text_graft]) fun _ _ => .pure _

end

end Script

/-- A way of calling functions that is tame for all compiled functions. -/
def Invoke.Calm (ρ : Option Region) (call : Invoke) : Prop :=
  ∀ f args, f.Compiled → Script.Calm ρ (call f args)

end ScriptEngine
