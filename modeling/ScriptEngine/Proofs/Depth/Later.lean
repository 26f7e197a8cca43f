import ScriptEngine.Proofs.Depth.Moments
import ScriptEngine.Proofs.Tame.Host

/-!
# Later moments extend the heap

What is in the heap when a call starts is there at every moment of the call (`Function.Reaches`):
windows and scopes are made, and never dropped.

A moment in the middle of an operation is the engine on which the operation makes a call. It is
seen from outside: the operation fails with this engine if the call that it makes there does
(`Script.Asks.fails`), and what holds of failures of tame operations holds of it.
-/

namespace ScriptEngine

open Classical

/-! ## Calls that operations make -/

namespace Script

variable {α : Type} {m : Invoke → Script α} {call : Invoke} {e e₁ : Engine} {f : Function}
  {args : Array Value}

/-- An operation fails if one call does, or it is the same whatever the call does. -/
theorem Composed.fails_or_same (hm : Composed m) (call : Invoke) (e : Engine) (f : Function)
    (args : Array Value) (e₁ : Engine) :
    (∀ x, m (failAt call f args e₁ x) e = .error x e₁) ∨
      ∀ call' : Invoke, (∀ f' args' e', (f', args', e') ≠ (f, args, e₁) →
        call' f' args' e' = call f' args' e') → m call' e = m call e := by
  induction hm generalizing e with
  | pure | throw | get | onHeap | note => exact .inr fun _ _ => rfl
  | invoke g inner =>
    by_cases hpoint : (g, inner, e) = (f, args, e₁)
    · cases hpoint
      exact .inl fun x => if_pos rfl
    · exact .inr fun call' hsame => hsame g inner e hpoint
  | @bind _ _ m k _ _ ihm ihk =>
    rcases ihm e with hfails | hsame
    · refine .inl fun x => ?_
      beta_reduce
      rw [bind_apply, hfails]
    · rcases hme : m call e with ⟨a, e₂⟩ | ⟨y, e₂⟩
      · rcases ihk a e₂ with hfails | hsame'
        · refine .inl fun x => ?_
          have hagrees := hsame (failAt call f args e₁ x) fun f' args' e' hne => if_neg hne
          beta_reduce
          rw [bind_apply, hagrees, hme]
          exact hfails x
        · refine .inr fun call' hcall' => ?_
          beta_reduce
          rw [bind_apply, bind_apply, hsame call' hcall', hme]
          exact hsame' call' hcall'
      · refine .inr fun call' hcall' => ?_
        beta_reduce
        rw [bind_apply, bind_apply, hsame call' hcall', hme]

/-- An operation fails if a call that it makes does. -/
theorem Asks.fails (h : Asks m call e f args e₁) (hm : Composed m) (x : Failure) :
    m (failAt call f args e₁ x) e = .error x e₁ := by
  obtain ⟨call', hsame, hne⟩ := h
  exact (hm.fails_or_same call e f args e₁).resolve_right (fun h => hne (h call' hsame)) x

/-- Without a region to guard against, there is nothing to commute with. -/
theorem tame_of_allowed {P : Engine → Prop} {Q : α → Engine → Prop} {m : Script α}
    (h : ∀ e : Engine, e.Intact → P e → Outcome.Allowed none e.heap Q (m e)) : Tame none P m Q :=
  fun e hg hP => ⟨h e hg hP, fun _ => by rcases hme : m e <;> exact hme⟩

theorem calm_failAt (hcall : call.Calm none) {x : Failure} (hx : f.Compiled → x.Benign) :
    (failAt call f args e₁ x).Calm none := by
  intro f' args' hf'
  refine tame_of_allowed fun e he _ => ?_
  by_cases hpoint : (f', args', e) = (f, args, e₁)
  · cases hpoint
    rw [show failAt call f args e₁ x f args e₁ = .error x e₁ from if_pos rfl]
    exact Outcome.allowed_error he (.refl _) (hx hf')
  · rw [show failAt call f args e₁ x f' args' e = call f' args' e from if_neg hpoint]
    exact (hcall f' args' hf' e he trivial).1

/-- A call that a tame operation makes is one of a compiled function, on a later heap. -/
theorem Asks.later {P : Engine → Prop} {Q : α → Engine → Prop} (h : Asks m call e f args e₁)
    (hm : Composed m) (htame : ∀ call : Invoke, call.Calm none → Tame none P (m call) Q)
    (hcall : call.Calm none) (he : e.Intact) (hP : P e) :
    f.Compiled ∧ e₁.Intact ∧ e.heap.Extends e₁.heap := by
  have hallowed : ∀ x : Failure, (f.Compiled → x.Benign) →
      Outcome.Allowed none e.heap Q (.error x e₁) := fun x hx => by
    have hcalm : (failAt call f args e₁ x).Calm none := calm_failAt hcall hx
    have hallow := (htame _ hcalm e he hP).1
    rwa [h.fails hm x] at hallow
  have hexhausted := hallowed .exhausted fun _ => trivial
  refine ⟨?_, hexhausted.guarded, hexhausted.extends_⟩
  by_contra hf
  -- A failure of the machine would be allowed.
  have hbenign := (hallowed (.runtime .templateExpected) fun hc => absurd hc hf).benign _ _ rfl
  exact absurd (hbenign _ rfl) (by decide)

end Script

/-! ## Frames -/

variable {call : Invoke} {f : Frame} {n k pc pc' : Nat} {e e' : Engine} {g : Function}
  {args : Array Value}

theorem Frame.Passes.later (h : f.Passes call k pc e pc' e') (hf : f.Proper none)
    (hcall : call.Calm none) (he : e.Intact) (hready : f.Ready pc e) :
    e'.Intact ∧ f.Ready pc' e' ∧ e.heap.Extends e'.heap := by
  induction h with
  | stay => exact ⟨he, hready, .refl _⟩
  | @step _ pc pc₁ _ e e₁ _ i flow hi hstep hflow _ ih =>
    have hallow := (Frame.tame_step hf hcall hi e he hready).1
    rw [hstep] at hallow
    have hcontinues := hallow.result flow e₁ rfl
    have hready : f.Ready pc₁ e₁ := by
      cases flow with
      | next =>
        cases hflow
        exact hcontinues
      | jump target =>
        cases hflow
        exact hcontinues
      | leave v => cases hflow
    obtain ⟨he', hready', hx⟩ := ih hallow.guarded hready
    exact ⟨he', hready', hallow.extends_.trans hx⟩

theorem newFrame_later {c : Chunk} (hc : c.Compiled) (he : e.Intact) {scope : ScopeRef}
    {receiver : Value} {values : Array Value} (h : newFrame c scope receiver values e = .ok f e') :
    e'.Intact ∧ f.Proper none ∧ f.Ready 0 e' ∧ e.heap.Extends e'.heap := by
  have hallow := (tame_newFrame hc scope receiver values e he trivial).1
  rw [h] at hallow
  obtain ⟨hproper, hready⟩ := hallow.result f e' rfl
  exact ⟨hallow.guarded, hproper, hready, hallow.extends_⟩

namespace Function

variable {host : Host} (hhost : host.All Script.StaysCalm)

include hhost

/-- A frame that a call has entered. -/
theorem Executes.later (h : g.Executes host n args e f pc e') (hg : g.Compiled) (he : e.Intact) :
    e'.Intact ∧ f.Proper none ∧ f.Ready pc e' ∧ e.heap.Extends e'.heap := by
  obtain ⟨chunk, e₁, k, hbody, -, hf, -, hpasses⟩ := h
  obtain ⟨he₁, hproper, hready, hx⟩ := newFrame_later (hg chunk hbody)
    (e := { e with depth := e.depth + 1 }) he hf
  obtain ⟨he', hready', hx'⟩ := hpasses.later hproper (Host.calm_call hhost n) he₁ hready
  exact ⟨he', hproper, hready', hx.trans hx'⟩

/-- What is in the heap when a call starts is there at every moment of it. -/
theorem Reaches.later (hcomposed : host.All Script.Composed) (h : g.Reaches host n args e k e')
    (hg : g.Compiled) (he : e.Intact) : e.heap.Extends e'.heap := by
  have hcall (n : Nat) : (host.call n).Calm none := Host.calm_call hhost n
  induction h with
  | start => exact .refl _
  | finish n g args e => exact (hcall n g args hg e he trivial).1.extends_
  | @native n k g f native args inner e e₁ e' hbody hasks _ ih =>
    have hnative := hcomposed.native Script.closed_composed g.receiver args native
    obtain ⟨hf, he₁, hx⟩ := hasks.later hnative
      (fun _ hcall => Host.calm_native hhost hcall g.receiver args) (hcall n) he trivial
    exact hx.trans (ih hf he₁)
  | frame hframe => exact (hframe.later hhost hg he).2.2.2
  | @nested n pc k g h args inner e e₁ e₂ e' f i hframe hi hasks _ ih =>
    obtain ⟨he₁, hproper, hready, hx⟩ := hframe.later hhost hg he
    obtain ⟨hh, he₂, hx'⟩ := hasks.later (f.composed_step i)
      (fun _ hcall => Frame.tame_step hproper hcall hi) (hcall n) he₁ hready
    exact (hx.trans hx').trans (ih hh he₂)

end Function

end ScriptEngine
