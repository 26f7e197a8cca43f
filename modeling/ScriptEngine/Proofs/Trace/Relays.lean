import ScriptEngine.Proofs.Composed

/-!
# Operations relay errors

An operation that calls functions fails in one of two ways. It *fails alone*, with the same failure
however calls fail that it makes; or it *awaits* a call, and then it fails as the call does,
whatever the failure is. What it does to the engine before it fails is left open.

`Relays` says of an operation that it fails in no other way: it catches no errors and changes none,
and an error of its own has no frames in its trace yet. Composed operations relay errors
(`Composed.relays`), since operations that do so compose (`Relays.bind`).
-/

namespace ScriptEngine

/-- Calls that succeed also succeed in another way of calling, with the same result. -/
def Invoke.Le (call call' : Invoke) : Prop :=
  ∀ f args e v e', call f args e = .ok v e' → call' f args e = .ok v e'

theorem Invoke.Le.refl (call : Invoke) : call.Le call :=
  fun _ _ _ _ _ h => h

namespace Script

variable {α β : Type}

/-- An operation fails whatever the failures of its calls are. -/
def FailsAlone (m : Invoke → Script α) (call : Invoke) (e : Engine) (x : Failure) (e' : Engine) :
    Prop :=
  ∀ call', call.Le call' → m call' e = .error x e'

/-- An operation is at a call of a function: however the call fails, it fails in the same way. -/
def Awaits (m : Invoke → Script α) (call : Invoke) (e : Engine) (f : Function) (args : Array Value)
    (e₁ : Engine) : Prop :=
  ∀ call', call.Le call' → ∀ x e₂, call' f args e₁ = .error x e₂ → ∃ e', m call' e = .error x e'

/-- An operation that neither catches nor changes errors; see the head of the module. -/
structure Relays (m : Invoke → Script α) : Prop where
  mono : ∀ {call call' : Invoke} {e a e'}, call.Le call' → m call e = .ok a e' → m call' e = .ok a e'
  fails : ∀ {call e x e'}, m call e = .error x e' →
    FailsAlone m call e x e' ∧ x.Fresh ∨
      ∃ f args e₁ e₂, call f args e₁ = .error x e₂ ∧ Awaits m call e f args e₁

namespace Relays

variable {m : Invoke → Script α}

theorem bind {k : α → Invoke → Script β} (hm : Relays m) (hk : ∀ a, Relays (k a)) :
    Relays fun call => m call >>= fun a => k a call := by
  constructor
  · intro call call' e b e' hle h
    beta_reduce at h ⊢
    rw [bind_apply] at h ⊢
    rcases hme : m call e with ⟨a, e₁⟩ | ⟨x, e₁⟩ <;> rw [hme] at h
    · rw [hm.mono hle hme]
      exact (hk a).mono hle h
    · cases h
  · intro call e x e' h
    beta_reduce at h
    rw [bind_apply] at h
    rcases hme : m call e with ⟨a, e₁⟩ | ⟨y, e₁⟩ <;> rw [hme] at h
    · rcases (hk a).fails h with ⟨halone, hfresh⟩ | ⟨f, args, e₂, e₃, hcall, hawaits⟩
      · refine .inl ⟨fun call' hle => ?_, hfresh⟩
        beta_reduce
        rw [bind_apply, hm.mono hle hme]
        exact halone call' hle
      · refine .inr ⟨f, args, e₂, e₃, hcall, fun call' hle y e₄ hcall' => ?_⟩
        beta_reduce
        rw [bind_apply, hm.mono hle hme]
        exact hawaits call' hle y e₄ hcall'
    · cases h
      rcases hm.fails hme with ⟨halone, hfresh⟩ | ⟨f, args, e₂, e₃, hcall, hawaits⟩
      · refine .inl ⟨fun call' hle => ?_, hfresh⟩
        beta_reduce
        rw [bind_apply, halone call' hle]
      · refine .inr ⟨f, args, e₂, e₃, hcall, fun call' hle y e₄ hcall' => ?_⟩
        obtain ⟨e₅, hfails⟩ := hawaits call' hle y e₄ hcall'
        refine ⟨e₅, ?_⟩
        beta_reduce
        rw [bind_apply, hfails]

/-- A computation without calls. -/
theorem const {n : Script α} (h : ∀ e x e', n e = .error x e' → x.Fresh) : Relays fun _ => n :=
  ⟨fun _ h => h, fun hn => .inl ⟨fun _ _ => hn, h _ _ _ hn⟩⟩

/-- A computation that succeeds. -/
theorem total {n : Script α} (h : ∀ e, ∃ a e', n e = .ok a e') : Relays fun _ => n := by
  refine const fun e x e' hn => ?_
  obtain ⟨a, e₁, hok⟩ := h e
  rw [hok] at hn
  cases hn

theorem throw {x : Failure} (hx : x.Fresh) : Relays fun _ => (throw x : Script α) := by
  refine const fun _ _ _ h => ?_
  cases h
  exact hx

/-- A call itself. -/
theorem invoke (f : Function) (args : Array Value) : Relays fun call => call f args :=
  ⟨fun hle h => hle _ _ _ _ _ h,
    fun h => .inr ⟨f, args, _, _, h, fun _ _ _ e₂ hcall => ⟨e₂, hcall⟩⟩⟩

end Relays

theorem Composed.relays {m : Invoke → Script α} (hm : Composed m) : Relays m := by
  induction hm with
  | pure a => exact .total fun e => ⟨a, e, rfl⟩
  | throw hx => exact .throw hx
  | get => exact .total fun e => ⟨e, e, rfl⟩
  | onHeap f => exact .total fun _ => ⟨_, _, rfl⟩
  | note line => exact .total fun _ => ⟨_, _, rfl⟩
  | invoke f args => exact .invoke f args
  | bind _ _ ihm ihk => exact ihm.bind ihk

theorem closed_relays : Closed Relays :=
  ⟨Composed.relays, .bind⟩

end Script

end ScriptEngine
