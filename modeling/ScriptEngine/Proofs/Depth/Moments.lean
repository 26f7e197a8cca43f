import ScriptEngine.Proofs.Depth.Steady

/-!
# The depth counts the active frames

The *moments* of a call are the engines on which it starts and ends, those on which a frame that it
entered comes to an instruction, and the moments of the calls that it makes. `Function.Reaches` says
of a moment how many frames the call has entered by then and not left again. A call that an
operation makes is one that its outcome depends on (`Script.Asks`); reentrant operations ask for
calls on their own level only (`Reentrant.level_of_asks`).

`Function.Reaches.depth` is the invariant: at every moment the depth of the engine exceeds that at
the start by the number of active frames. It is proved by induction on how the moment is reached.
Where a run fails, the moment of the failure has a frame for each position of the trace
(`HostRun.reaches_of_error`). What the functions and constructors of the host do is arbitrary,
except that they are reentrant.

Main statement: `call_depth_is_balanced_and_tight`.
-/

namespace ScriptEngine

/-! ## Calls that operations make -/

namespace Script

variable {α : Type} {m : Invoke → Script α} {call call' : Invoke} {e e₁ : Engine} {f : Function}
  {args : Array Value}

/-- An operation makes a call: its outcome depends on what the call does. -/
def Asks (m : Invoke → Script α) (call : Invoke) (e : Engine) (f : Function) (args : Array Value)
    (e₁ : Engine) : Prop :=
  ∃ call' : Invoke, (∀ f' args' e', (f', args', e') ≠ (f, args, e₁) →
    call' f' args' e' = call f' args' e') ∧ m call' e ≠ m call e

/-- Two ways of calling that agree on one level of the stack cannot be told apart there. -/
theorem Reentrant.congr_level (hm : Reentrant m) (hcall : call.Steady)
    (h : ∀ f args (e' : Engine), e.Level e' → call' f args e' = call f args e') :
    m call' e = m call e := by
  induction hm generalizing e with
  | own => rfl
  | invoke f args => exact h f args e (.refl e)
  | @attempt _ _ m k hm _ ihm ihk =>
    have hlevel := hm.steady hcall e
    simp only [Script.attempt, ihm h]
    rcases hme : m call e with ⟨a, e₁⟩ | ⟨x, e₁⟩ <;> rw [hme] at hlevel
    · exact ihk (.ok a) (e := e₁) fun f args e' h' => h f args e' (hlevel.trans h')
    · exact ihk (.error x) (e := e₁) fun f args e' h' => h f args e' (hlevel.trans h')

/-- An operation makes its calls on the level that it starts on. -/
theorem Reentrant.level_of_asks (hm : Reentrant m) (hcall : call.Steady)
    (h : Asks m call e f args e₁) : e.Level e₁ := by
  obtain ⟨call', hsame, hne⟩ := h
  by_contra hlevel
  refine hne (hm.congr_level hcall fun f' args' e' h' => hsame f' args' e' ?_)
  rintro ⟨⟩
  exact hlevel h'

open Classical in
/-- Another way of calling in which one call fails in a given way. -/
noncomputable def failAt (call : Invoke) (f : Function) (args : Array Value) (e₁ : Engine)
    (x : Failure) : Invoke := fun f' args' e' =>
  if (f', args', e') = (f, args, e₁) then .error x e₁ else call f' args' e'

/-- An operation that fails as a call does makes this call. -/
theorem Awaits.asks {x : Failure} {e' : Engine} (h : Awaits m call e f args e₁)
    (hcall : call f args e₁ = .error x e') : Asks m call e f args e₁ := by
  obtain ⟨y, hy⟩ : ∃ y, y ≠ x := by
    cases x with
    | error err => exact ⟨.exhausted, nofun⟩
    | exhausted => exact ⟨.runtime .callDepth, nofun⟩
  have hle : call.Le (failAt call f args e₁ y) := by
    intro f' args' e₂ v e₃ hok
    have hother : (f', args', e₂) ≠ (f, args, e₁) := by
      rintro ⟨⟩
      rw [hcall] at hok
      cases hok
    simp only [failAt, if_neg hother, hok]
  have hfails : failAt call f args e₁ y f args e₁ = .error y e₁ := by
    simp only [failAt, if_true]
  refine ⟨failAt call f args e₁ y, fun f' args' e₂ hother => by simp only [failAt, if_neg hother], ?_⟩
  obtain ⟨e₂, hother⟩ := h _ hle y e₁ hfails
  obtain ⟨e₃, hsame⟩ := h call (.refl call) x e' hcall
  rw [hother, hsame]
  intro heq
  cases heq
  exact hy rfl

end Script

/-! ## Moments -/

namespace Function

/-- A call has entered a frame, which is at an index of its code. -/
def Executes (host : Host) (n : Nat) (g : Function) (args : Array Value) (e : Engine) (f : Frame)
    (pc : Nat) (e' : Engine) : Prop :=
  ∃ chunk e₁ k, g.body = .script chunk ∧ e.depth < e.limits.maxCallDepth ∧
    newFrame chunk (g.scope.getD e.globalScope) g.receiver (g.parameters chunk.paramCount args)
      { e with depth := e.depth + 1 } = .ok f e₁ ∧
    k < n ∧ f.Passes (host.call n) k 0 e₁ pc e'

/-- A call, with nested calls bounded by the fuel, comes to a moment at which it has the given
number of active frames. -/
inductive Reaches (host : Host) : Nat → Function → Array Value → Engine → Nat → Engine → Prop where
  | start (n : Nat) (g : Function) (args : Array Value) (e : Engine) : Reaches host n g args e 0 e
  | finish (n : Nat) (g : Function) (args : Array Value) (e : Engine) :
      Reaches host n g args e 0 (Outcome.engine (host.call n g args e))
  | native {n k : Nat} {g f : Function} {native : Native} {args inner : Array Value}
      {e e₁ e' : Engine} (hg : g.body = .native native)
      (hasks : Script.Asks (fun call => host.native call g.receiver args native) (host.call n) e f
        inner e₁)
      (hinner : Reaches host n f inner e₁ k e') : Reaches host (n + 1) g args e k e'
  | frame {n pc : Nat} {g : Function} {args : Array Value} {e e' : Engine} {f : Frame}
      (hframe : g.Executes host n args e f pc e') : Reaches host (n + 1) g args e 1 e'
  | nested {n pc k : Nat} {g h : Function} {args inner : Array Value} {e e₁ e₂ e' : Engine}
      {f : Frame} {i : Instruction} (hframe : g.Executes host n args e f pc e₁)
      (hi : f.chunk.code[pc]? = some i)
      (hasks : Script.Asks (fun call => f.step call i) (host.call n) e₁ h inner e₂)
      (hinner : Reaches host n h inner e₂ k e') : Reaches host (n + 1) g args e (k + 1) e'

end Function

theorem Frame.Passes.level {call : Invoke} (hcall : call.Steady) {k pc pc' : Nat} {f : Frame}
    {e e' : Engine} (h : f.Passes call k pc e pc' e') : e.Level e' := by
  induction h with
  | stay pc e => exact .refl e
  | @step _ _ _ _ e _ _ i _ _ hstep _ _ ih =>
    have hlevel := (f.composed_step i).steady hcall e
    rw [hstep] at hlevel
    exact hlevel.trans ih

namespace Function

variable {host : Host} {n k : Nat} {g : Function} {args : Array Value} {e e' : Engine}

/-- In a frame there is one frame more on the stack, for which there was room. -/
theorem Executes.depth (hhost : host.All Script.Reentrant) {f : Frame} {pc : Nat}
    (h : g.Executes host n args e f pc e') :
    e'.depth = e.depth + 1 ∧ e'.limits = e.limits ∧ e'.depth ≤ e.limits.maxCallDepth := by
  obtain ⟨chunk, e₁, k, -, hroom, hf, -, hpasses⟩ := h
  have hnew := steady_newFrame chunk (g.scope.getD e.globalScope) g.receiver
    (g.parameters chunk.paramCount args) { e with depth := e.depth + 1 }
  rw [hf] at hnew
  have hlevel := hnew.trans (hpasses.level (Host.steady_call hhost n))
  exact ⟨hlevel.depth, hlevel.limits, hlevel.depth ▸ hroom⟩

/-- At every moment, the depth counts the active frames, and frames are entered only where there is
room for them. -/
theorem Reaches.depth (hhost : host.All Script.Reentrant) (h : g.Reaches host n args e k e') :
    e'.depth = e.depth + k ∧ e'.limits = e.limits ∧ e'.depth ≤ max e.depth e.limits.maxCallDepth := by
  induction h with
  | start => exact ⟨rfl, rfl, le_max_left _ _⟩
  | finish n g args e =>
    have hlevel := Host.steady_call hhost n g args e
    exact ⟨hlevel.depth, hlevel.limits, hlevel.depth ▸ le_max_left _ _⟩
  | @native n k g f native args inner e e₁ e' hg hasks _ ih =>
    have hlevel := (hhost.native Script.closed_reentrant g.receiver args native).level_of_asks
      (Host.steady_call hhost n) hasks
    rw [hlevel.depth, hlevel.limits] at ih
    exact ih
  | frame hframe =>
    obtain ⟨hdepth, hlimits, hroom⟩ := hframe.depth hhost
    exact ⟨hdepth, hlimits, le_max_of_le_right hroom⟩
  | @nested n pc k g h args inner e e₁ e₂ e' f i hframe hi hasks _ ih =>
    obtain ⟨hdepth, hlimits, hroom⟩ := hframe.depth hhost
    have hlevel :=
      (f.composed_step i).reentrant.level_of_asks (Host.steady_call hhost n) hasks
    rw [hlevel.depth, hlevel.limits, hlimits] at ih
    refine ⟨by omega, ih.2.1, ?_⟩
    exact le_max_of_le_right (ih.2.2.trans (max_le hroom le_rfl))

/-- An error is raised at a moment with a frame for each position of the call stack. -/
theorem Raises.reaches {err : ScriptError} {stack : List Position}
    (h : g.Raises host n args e err stack) : ∃ e', g.Reaches host n args e stack.length e' := by
  induction n generalizing g args e err stack with
  | zero => cases h
  | succ n ih =>
    rcases hg : g.body with native | chunk
    · simp only [Raises, hg] at h
      cases h with
      | alone => exact ⟨e, .start _ _ _ _⟩
      | within hawaits hraises =>
        obtain ⟨e₁, herror⟩ := hraises.error
        obtain ⟨e₂, hreaches⟩ := ih hraises
        exact ⟨e₂, .native hg (hawaits.asks herror) hreaches⟩
    · simp only [Raises, hg] at h
      rcases h with ⟨-, -, rfl⟩ | ⟨hroom, f, e₁, j, pc, e₂, i, inner, hf, hj, hpasses, hi, hraises,
        rfl⟩
      · exact ⟨e, .start _ _ _ _⟩
      · have hframe : g.Executes host n args e f pc e₂ := ⟨chunk, e₁, j, hg, hroom, hf, hj, hpasses⟩
        rw [List.length_append]
        cases hraises with
        | alone => exact ⟨e₂, .frame hframe⟩
        | within hawaits hraises =>
          obtain ⟨e₃, herror⟩ := hraises.error
          obtain ⟨e₄, hreaches⟩ := ih hraises
          exact ⟨e₄, .nested hframe hi (hawaits.asks herror) hreaches⟩

end Function

/-! ## Runs of the host -/

namespace HostRun

/-- A run comes to a moment at which it has the given number of active frames. -/
inductive Reaches (host : Host) (r : HostRun) (fuel : Nat) (e : Engine) : Nat → Engine → Prop where
  | start : Reaches host r fuel e 0 e
  | finish : Reaches host r fuel e 0 (Outcome.engine (r.start host fuel e))
  | nested {k : Nat} {f : Function} {args : Array Value} {e₁ e' : Engine}
      (hasks : Script.Asks (fun call => r.operation call) (host.call fuel) e f args e₁)
      (hinner : f.Reaches host fuel args e₁ k e') : Reaches host r fuel e k e'

/-- The engine behind a number of runs, each with its own fuel. -/
def after (host : Host) : List (HostRun × Nat) → Engine → Engine
  | [], e => e
  | (r, fuel) :: runs, e => after host runs (Outcome.engine (r.start host fuel e))

variable {host : Host} {r : HostRun} {fuel k : Nat} {e e' : Engine}

theorem steady_start (hhost : host.All Script.Reentrant) (r : HostRun) (fuel : Nat) :
    Script.Steady (r.start host fuel) :=
  r.composed_operation.steady (Host.steady_call hhost fuel)

theorem level_after (hhost : host.All Script.Reentrant) (runs : List (HostRun × Nat)) (e : Engine) :
    e.Level (after host runs e) := by
  induction runs generalizing e with
  | nil => exact .refl e
  | cons run runs ih => exact (run.1.steady_start hhost run.2 e).trans (ih _)

theorem Reaches.depth (hhost : host.All Script.Reentrant) (h : r.Reaches host fuel e k e') :
    e'.depth = e.depth + k ∧ e'.depth ≤ max e.depth e.limits.maxCallDepth := by
  cases h with
  | start => exact ⟨rfl, le_max_left _ _⟩
  | finish =>
    have hlevel := r.steady_start hhost fuel e
    exact ⟨hlevel.depth, hlevel.depth ▸ le_max_left _ _⟩
  | nested hasks hinner =>
    have hlevel :=
      r.composed_operation.reentrant.level_of_asks (Host.steady_call hhost fuel) hasks
    obtain ⟨hdepth, -, hroom⟩ := hinner.depth hhost
    rw [hlevel.depth, hlevel.limits] at hroom
    exact ⟨hlevel.depth ▸ hdepth, hroom⟩

/-- A run that fails in its code does so at a moment with a frame for each position of the trace, if
errors are relayed. -/
theorem reaches_of_error (hhost : host.All Script.Relays) {cause : RuntimeFault}
    {trace : List Position}
    (h : r.start host fuel e = .error (.error ⟨.runtime cause, trace⟩) e') :
    ∃ e₁, r.Reaches host fuel e trace.length e₁ := by
  obtain ⟨raised, stack, hraises, herr⟩ :=
    r.relays_operation.raises h fun _ _ _ _ _ => Function.raises_of_error hhost
  have hfresh := hraises.fresh r.relays_operation fun _ _ _ _ _ => Function.Raises.fresh hhost
  obtain rfl : trace = stack := by
    rcases hfresh with ⟨own, rfl⟩ | ⟨hfault, -⟩
    · exact congrArg ScriptError.trace herr
    · exact absurd (congrArg ScriptError.fault herr).symm (hfault cause)
  cases hraises with
  | alone => exact ⟨e, .start⟩
  | within hawaits hraises =>
    obtain ⟨e₁, herror⟩ := hraises.error
    obtain ⟨e₂, hreaches⟩ := hraises.reaches
    exact ⟨e₂, .nested (hawaits.asks herror) hreaches⟩

end HostRun

/-! ## Entering frames -/

theorem enterFrame_eq (e : Engine) : enterFrame e =
    if e.limits.maxCallDepth ≤ e.depth then .error (.runtime .callDepth) e
    else .ok () { e with depth := e.depth + 1 } := by
  simp only [enterFrame, Script.get_bind_apply]
  split <;> rfl

/-- The depth is balanced and tight. Whatever a host runs on an engine, and however the runs end, the
depth behind them is the depth in front of them; at every moment of a run it counts the active
frames, on top of those from before, and frames never exceed the limit. Between the steps of a host
there are no frames. A frame is refused, as a stack overflow and with no other effect, exactly if
the depth has come to the limit; otherwise it is counted and run. This is so for every host of which
the functions and constructors touch the stack by calls only. -/
theorem call_depth_is_balanced_and_tight {host : Host} (hhost : host.All Script.Reentrant)
    (e : Engine) :
    (∀ runs : List (HostRun × Nat), (HostRun.after host runs e).depth = e.depth) ∧
    (∀ (runs : List (HostRun × Nat)) (r : HostRun) (fuel k : Nat) (e' : Engine),
      r.Reaches host fuel (HostRun.after host runs e) k e' →
        e'.depth = e.depth + k ∧ e'.depth ≤ max e.depth e.limits.maxCallDepth) ∧
    (e.Reachable host → e.depth = 0) ∧
    (∀ (x : Failure) (e' : Engine), enterFrame e = .error x e' ↔
      e.limits.maxCallDepth ≤ e.depth ∧ x = .runtime .callDepth ∧ e' = e) ∧
    (∀ e' : Engine, enterFrame e = .ok () e' ↔
      e.depth < e.limits.maxCallDepth ∧ e' = { e with depth := e.depth + 1 }) ∧
    (∀ (call : Invoke) (fuel : Nat) (c : Chunk) (scope : ScopeRef) (receiver : Value)
      (args : Array Value),
      (e.limits.maxCallDepth ≤ e.depth →
        execute call fuel c scope receiver args e = .error (.runtime .callDepth) e) ∧
      (e.depth < e.limits.maxCallDepth → ∃ f e₁,
        newFrame c scope receiver args { e with depth := e.depth + 1 } = .ok f e₁ ∧
        execute call fuel c scope receiver args e = (f.run call fuel 0).andThen f.leave e₁)) ∧
    RuntimeFault.callDepth.message = "call stack overflow" := by
  refine ⟨fun runs => (HostRun.level_after hhost runs e).depth, ?_, fun h => h.depth hhost, ?_, ?_, ?_, rfl⟩
  · intro runs r fuel k e' h
    have hlevel := HostRun.level_after hhost runs e
    have hdepth := h.depth hhost
    rwa [hlevel.depth, hlevel.limits] at hdepth
  · intro x e'
    rw [enterFrame_eq]
    split <;> grind
  · intro e'
    rw [enterFrame_eq]
    split <;> grind
  · intro call fuel c scope receiver args
    exact ⟨execute_refused, fun hroom => ⟨_, _, rfl, execute_entered call fuel hroom rfl⟩⟩

/-- A function makes an instance of a class, of which the constructor runs a script that divides by
zero, on an engine with room for two frames: both are active when it fails, and then the depth is at
the limit. -/
theorem call_depth_is_balanced_and_tight_nested : dividingHost.All Script.Reentrant ∧
    ∃ e', (HostRun.call (.function ⟨26⟩) #[.classObj ⟨4⟩]).Reaches dividingHost 40
      (makingEngine { maxCallDepth := 2 }) 2 e' ∧ e'.depth = 2 := by
  have hhost : dividingHost.All Script.Reentrant := dividingHost_all.mono Script.Composed.reentrant
  have hends : Outcome.err? ((HostRun.call (.function ⟨26⟩) #[.classObj ⟨4⟩]).start dividingHost 40
      (makingEngine { maxCallDepth := 2 })) =
        some ⟨.runtime .divisionByZero, [⟨1, 3⟩, ⟨1, 24⟩]⟩ := by
    decide +kernel
  have hidle : (makingEngine { maxCallDepth := 2 }).depth = 0 := by
    decide +kernel
  obtain ⟨e', h⟩ := Outcome.eq_of_err? hends
  obtain ⟨e₁, hreaches⟩ :=
    HostRun.reaches_of_error (dividingHost_all.mono Script.Composed.relays) h
  obtain ⟨-, hmoment, -⟩ :=
    call_depth_is_balanced_and_tight hhost (makingEngine { maxCallDepth := 2 })
  have hdepth := (hmoment [] _ 40 2 e₁ hreaches).1
  rw [hidle] at hdepth
  exact ⟨hhost, e₁, hreaches, hdepth⟩

end ScriptEngine
