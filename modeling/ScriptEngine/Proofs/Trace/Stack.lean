import ScriptEngine.Embedding
import ScriptEngine.Proofs.Composed.Operations
import ScriptEngine.Proofs.Expression.Runs
import ScriptEngine.Proofs.Trace.Relays

/-!
# The trace of an error is the call stack

An error gets a position into its trace for every frame that it leaves. Here this is compared with
the call stack at the moment when the error is raised.

**Call stacks.** `Function.Raises` follows a call down to the operation that fails alone. On the
way it collects the positions of the instructions that the active frames are at: each of them waits
for the call of the next one, directly or through native functions, accessors and constructors,
which have no frames. A frame that is refused is not active.

**Both ways.** Every error of a call is raised at some call stack (`Function.raises_of_error`), and
an error that is raised at a call stack leaves the call with that call stack behind its own trace
(`Function.Raises.error`). Both are inductions over the fuel of a call, which bounds how deeply
calls nest.

**Hosts.** What the functions and constructors of the host do is arbitrary, except that they relay
errors: they catch none, and their own have no frames in their trace.

Main statement: `error_trace_is_call_stack`.
-/

namespace ScriptEngine

/-- The error with more positions behind those of its trace. -/
def ScriptError.extend (err : ScriptError) (stack : List Position) : ScriptError :=
  { err with trace := err.trace ++ stack }

theorem ScriptError.extend_nil (err : ScriptError) : err.extend [] = err := by
  simp [extend]

theorem ScriptError.unwind_extend (err : ScriptError) (stack : List Position) (p : Position) :
    (err.extend stack).unwind p = err.extend (stack ++ [p]) := by
  simp [extend, unwind]

/-! ## Call stacks -/

/-- The index at which a frame goes on behind an instruction. -/
def Flow.index? (pc : Nat) : Flow → Option Nat
  | .next => some (pc + 1)
  | .jump target => some target
  | .leave _ => none

/-- A frame goes through a number of instructions, from one index to another. -/
inductive Frame.Passes (call : Invoke) (f : Frame) : Nat → Nat → Engine → Nat → Engine → Prop where
  | stay (pc : Nat) (e : Engine) : Passes call f 0 pc e pc e
  | step {k pc pc₁ pc' : Nat} {e e₁ e' : Engine} {i : Instruction} {flow : Flow}
      (hi : f.chunk.code[pc]? = some i) (hstep : f.step call i e = .ok flow e₁)
      (hflow : flow.index? pc = some pc₁) (hrest : Passes call f k pc₁ e₁ pc' e') :
      Passes call f (k + 1) pc e pc' e'

/-- An operation raises an error: alone, or within a call of which `R` says how it raises one. -/
inductive Script.Raises {α : Type}
    (R : Function → Array Value → Engine → ScriptError → List Position → Prop)
    (m : Invoke → Script α) (call : Invoke) (e : Engine) : ScriptError → List Position → Prop where
  | alone {err : ScriptError} {e' : Engine} (h : FailsAlone m call e (.error err) e') :
      Raises R m call e err []
  | within {f : Function} {args : Array Value} {e₁ : Engine} {err : ScriptError}
      {stack : List Position} (h : Awaits m call e f args e₁) (hR : R f args e₁ err stack) :
      Raises R m call e err stack

/-- A call of a function, with nested calls bounded by the fuel, raises an error while the frames
that it entered and that are active are at the given positions, innermost first. -/
def Function.Raises (host : Host) :
    Nat → Function → Array Value → Engine → ScriptError → List Position → Prop
  | 0, _, _, _, _, _ => False
  | n + 1, g, args, e, err, stack =>
    match g.body with
    | .native native =>
      Script.Raises (Raises host n) (fun call => host.native call g.receiver args native)
        (host.call n) e err stack
    | .script chunk =>
      -- A full stack refuses the frame; otherwise the frame comes to the instruction that fails.
      e.limits.maxCallDepth ≤ e.depth ∧ err = .runtime .callDepth ∧ stack = [] ∨
      e.depth < e.limits.maxCallDepth ∧ ∃ f e₁ k pc e₂ i inner,
        newFrame chunk (g.scope.getD e.globalScope) g.receiver (g.parameters chunk.paramCount args)
          { e with depth := e.depth + 1 } = .ok f e₁ ∧
        k < n ∧ f.Passes (host.call n) k 0 e₁ pc e₂ ∧ f.chunk.code[pc]? = some i ∧
        Script.Raises (Raises host n) (fun call => f.step call i) (host.call n) e₂ err inner ∧
        stack = inner ++ [i.position]

/-! ## Operations -/

namespace Script

variable {α : Type} {R : Function → Array Value → Engine → ScriptError → List Position → Prop}
  {m : Invoke → Script α} {call : Invoke} {e e' : Engine} {err : ScriptError}
  {stack : List Position}

theorem Raises.error (h : Raises R m call e err stack)
    (hR : ∀ f args e err stack, R f args e err stack →
      ∃ e', call f args e = .error (.error (err.extend stack)) e') :
    ∃ e', m call e = .error (.error (err.extend stack)) e' := by
  cases h with
  | alone h => exact ⟨_, by rw [ScriptError.extend_nil, h call (.refl call)]⟩
  | within h hcall =>
    obtain ⟨e', he'⟩ := hR _ _ _ _ _ hcall
    exact h call (.refl call) _ e' he'

theorem Relays.raises (hm : Relays m) (h : m call e = .error (.error err) e')
    (hR : ∀ f args e err e', call f args e = .error (.error err) e' →
      ∃ raised stack, R f args e raised stack ∧ err = raised.extend stack) :
    ∃ raised stack, Raises R m call e raised stack ∧ err = raised.extend stack := by
  rcases hm.fails h with ⟨halone, -⟩ | ⟨f, args, e₁, e₂, hcall, hawaits⟩
  · exact ⟨err, [], .alone halone, err.extend_nil.symm⟩
  · obtain ⟨raised, stack, hraises, rfl⟩ := hR f args e₁ err e₂ hcall
    exact ⟨raised, stack, .within hawaits hraises, rfl⟩

/-- A way of calling in which all failures are the same. -/
def mute (call : Invoke) : Invoke := fun f args e =>
  match call f args e with
  | .ok v e' => .ok v e'
  | .error _ e' => .error .exhausted e'

theorem le_mute (call : Invoke) : call.Le (mute call) := by
  intro f args e v e' h
  simp only [mute, h]

/-- An operation that fails alone has an error of its own: it does not await a call, since it would
fail in another way if the call did. -/
theorem Relays.fresh (hm : Relays m) (h : FailsAlone m call e (.error err) e') :
    (Failure.error err).Fresh := by
  rcases hm.fails (h call (.refl call)) with ⟨-, hfresh⟩ | ⟨f, args, e₁, e₂, hcall, hawaits⟩
  · exact hfresh
  · have hmute : mute call f args e₁ = .error .exhausted e₂ := by
      simp only [mute, hcall]
    obtain ⟨e₃, hexhausted⟩ := hawaits (mute call) (le_mute call) _ _ hmute
    rw [h (mute call) (le_mute call)] at hexhausted
    cases hexhausted

theorem Raises.fresh (hm : Relays m) (h : Raises R m call e err stack)
    (hR : ∀ f args e err stack, R f args e err stack → (Failure.error err).Fresh) :
    (Failure.error err).Fresh := by
  cases h with
  | alone h => exact hm.fresh h
  | within h hcall => exact hR _ _ _ _ _ hcall

end Script

/-! ## Frames -/

namespace Frame

variable {call : Invoke} {f : Frame} {k pc pc' fuel : Nat} {e e' : Engine}

theorem Passes.run (h : f.Passes call k pc e pc' e') (fuel : Nat) :
    f.run call (fuel + k) pc e = f.run call fuel pc' e' := by
  induction h with
  | stay => rfl
  | @step k pc pc₁ pc' e e₁ e' i flow hi hstep hflow hrest ih =>
    rw [← Nat.add_assoc, Frame.run_succ hi]
    simp only [Script.tracing, hstep]
    cases flow with
    | next =>
      cases hflow
      exact ih
    | jump target =>
      cases hflow
      exact ih
    | leave v => cases hflow

/-- The instruction that a frame fails at. -/
theorem passes_of_error {err : ScriptError} (h : f.run call fuel pc e = .error (.error err) e') :
    ∃ k pc' e₁ i own, k < fuel ∧ f.Passes call k pc e pc' e₁ ∧ f.chunk.code[pc']? = some i ∧
      f.step call i e₁ = .error (.error own) e' ∧ err = own.unwind i.position := by
  induction fuel generalizing pc e with
  | zero => cases h
  | succ fuel ih =>
    rcases hi : f.chunk.code[pc]? with _ | i
    · simp only [Frame.run, hi] at h
      cases h
    · rw [Frame.run_succ hi] at h
      have hgoes : ∀ {flow : Flow} {e₁ : Engine} {pc₁ : Nat}, f.step call i e = .ok flow e₁ →
          flow.index? pc = some pc₁ → f.run call fuel pc₁ e₁ = .error (.error err) e' →
          ∃ k pc' e₁ i own, k < fuel + 1 ∧ f.Passes call k pc e pc' e₁ ∧
            f.chunk.code[pc']? = some i ∧ f.step call i e₁ = .error (.error own) e' ∧
              err = own.unwind i.position := by
        intro flow e₁ pc₁ hstep hflow hrun
        obtain ⟨k, pc', e₂, j, own, hk, hpasses, hj, hown, herr⟩ := ih hrun
        exact ⟨k + 1, pc', e₂, j, own, by omega, .step hi hstep hflow hpasses, hj, hown, herr⟩
      simp only [Script.tracing] at h
      rcases hstep : f.step call i e with ⟨_ | target | v, e₁⟩ | ⟨own | _, e₁⟩ <;> rw [hstep] at h
      · exact hgoes hstep rfl h
      · exact hgoes hstep rfl h
      · cases h
      · cases h
        exact ⟨0, pc, e, i, own, by omega, .stay pc e, hi, hstep, rfl⟩
      · cases h

end Frame

/-! ## Calls -/

section Execute

variable {call : Invoke} {fuel : Nat} {c : Chunk} {scope : ScopeRef} {receiver : Value}
  {args : Array Value} {e : Engine}

/-- A frame that finds no room on the stack. -/
theorem execute_refused (h : e.limits.maxCallDepth ≤ e.depth) :
    execute call fuel c scope receiver args e = .error (.runtime .callDepth) e := by
  have henter : enterFrame e = .error (.runtime .callDepth) e := by
    simp only [enterFrame, Script.get_bind_apply]
    rw [if_pos h]
    rfl
  rw [execute, Script.bind_apply, henter]

/-- The engine behind a frame: register 0 is cleared and the frame taken off the stack. -/
def Frame.leave (f : Frame) (e : Engine) : Engine :=
  { e with heap := e.heap.setCell ⟨f.window, f.base⟩ .void, depth := e.depth - 1 }

/-- A frame that is entered and run. -/
theorem execute_entered (call : Invoke) (fuel : Nat) (h : e.depth < e.limits.maxCallDepth)
    {f : Frame} {e₁ : Engine}
    (hf : newFrame c scope receiver args { e with depth := e.depth + 1 } = .ok f e₁) :
    execute call fuel c scope receiver args e = Script.andThen (f.run call fuel 0) f.leave e₁ := by
  have henter : enterFrame e = .ok () { e with depth := e.depth + 1 } := by
    simp only [enterFrame, Script.get_bind_apply]
    rw [if_neg (Nat.not_le.2 h)]
    rfl
  rw [execute, Script.bind_apply, henter]
  simp only [Script.andThen, Script.bind_apply, hf]
  rcases f.run call fuel 0 e₁ with ⟨v, e₂⟩ | ⟨x, e₂⟩ <;> rfl

end Execute

namespace Function

/-- What a function does on an engine of a host. -/
theorem call_script (host : Host) {n : Nat} {g : Function} {chunk : Chunk}
    (hg : g.body = .script chunk) (args : Array Value) (e : Engine) :
    host.call (n + 1) g args e =
      execute (host.call n) n chunk (g.scope.getD e.globalScope) g.receiver
        (g.parameters chunk.paramCount args) e := by
  simp only [Host.call, hg]
  rfl

theorem call_native (host : Host) {n : Nat} {g : Function} {native : Native}
    (hg : g.body = .native native) (args : Array Value) :
    host.call (n + 1) g args = host.native (host.call n) g.receiver args native := by
  simp only [Host.call, hg]

variable {host : Host} {n : Nat} {g : Function} {args : Array Value} {e e' : Engine}
  {err : ScriptError} {stack : List Position}

/-- An error leaves a call with the call stack at which it was raised. -/
theorem Raises.error (h : g.Raises host n args e err stack) :
    ∃ e', host.call n g args e = .error (.error (err.extend stack)) e' := by
  induction n generalizing g args e err stack with
  | zero => cases h
  | succ n ih =>
    rcases hg : g.body with native | chunk
    · simp only [Raises, hg] at h
      rw [call_native host hg]
      exact h.error fun _ _ _ _ _ => ih
    · simp only [Raises, hg] at h
      rw [call_script host hg]
      rcases h with ⟨hfull, rfl, rfl⟩ | ⟨hroom, f, e₁, k, pc, e₂, i, inner, hf, hk, hpasses, hi,
        hraises, rfl⟩
      · exact ⟨e, execute_refused hfull⟩
      · have hexecute := execute_entered (host.call n) n hroom hf
        obtain ⟨e₃, hstep⟩ := hraises.error fun _ _ _ _ _ => ih
        obtain ⟨rest, rfl⟩ : ∃ rest, n = rest + 1 + k := ⟨n - 1 - k, by omega⟩
        have hrun := hpasses.run (rest + 1)
        rw [Frame.run_succ hi] at hrun
        simp only [Script.tracing, hstep, ScriptError.unwind_extend] at hrun
        refine ⟨f.leave e₃, ?_⟩
        rw [hexecute]
        simp only [Script.andThen, hrun]

/-- Every error of a call was raised at some call stack. -/
theorem raises_of_error (hhost : host.All Script.Relays)
    (h : host.call n g args e = .error (.error err) e') :
    ∃ raised stack, g.Raises host n args e raised stack ∧ err = raised.extend stack := by
  induction n generalizing g args e e' err with
  | zero => cases h
  | succ n ih =>
    rcases hg : g.body with native | chunk
    · rw [call_native host hg] at h
      simp only [Raises, hg]
      exact (hhost.native Script.closed_relays g.receiver args native).raises h fun _ _ _ _ _ => ih
    · rw [call_script host hg] at h
      simp only [Raises, hg]
      rcases Nat.lt_or_ge e.depth e.limits.maxCallDepth with hroom | hfull
      · obtain ⟨f, e₁, hf⟩ : ∃ f e₁, newFrame chunk (g.scope.getD e.globalScope) g.receiver
            (g.parameters chunk.paramCount args) { e with depth := e.depth + 1 } = .ok f e₁ :=
          ⟨_, _, rfl⟩
        rw [execute_entered (host.call n) n hroom hf, Script.andThen] at h
        rcases hrun : f.run (host.call n) n 0 e₁ with ⟨v, e₂⟩ | ⟨x, e₂⟩ <;> rw [hrun] at h <;> cases h
        obtain ⟨k, pc, e₃, i, own, hk, hpasses, hi, hstep, rfl⟩ := Frame.passes_of_error hrun
        obtain ⟨raised, inner, hraises, rfl⟩ := (f.composed_step i).relays.raises hstep fun _ _ _ _ _ => ih
        exact ⟨raised, inner ++ [i.position], .inr ⟨hroom, f, e₁, k, pc, e₃, i, inner, hf, hk,
          hpasses, hi, hraises, rfl⟩, raised.unwind_extend inner i.position⟩
      · rw [execute_refused hfull] at h
        cases h
        exact ⟨.runtime .callDepth, [], .inl ⟨hfull, rfl, rfl⟩, rfl⟩

/-- An error has left no frame when it is raised. -/
theorem Raises.fresh (hhost : host.All Script.Relays) (h : g.Raises host n args e err stack) :
    (Failure.error err).Fresh := by
  induction n generalizing g args e err stack with
  | zero => cases h
  | succ n ih =>
    rcases hg : g.body with native | chunk
    · simp only [Raises, hg] at h
      exact Script.Raises.fresh (hhost.native Script.closed_relays _ _ _) h fun _ _ _ _ _ => ih
    · simp only [Raises, hg] at h
      rcases h with ⟨-, rfl, -⟩ | ⟨-, f, e₁, k, pc, e₂, i, inner, -, -, -, -, hraises, -⟩
      · exact .inl ⟨_, rfl⟩
      · exact Script.Raises.fresh (f.composed_step i).relays hraises fun _ _ _ _ _ => ih

end Function

/-! ## Runs of the host -/

/-- What a host can start. -/
inductive HostRun where
  | eval (source : String)
  | evalIn (source : String) (scope : ScopeRef)
  | call (callee : Value) (args : Array Value)

namespace HostRun

/-- What is started, as an operation on a way of calling. -/
def operation (call : Invoke) : HostRun → Script Value
  | .eval source => Script.eval call source
  | .evalIn source scope => Script.evalIn call source scope
  | .call callee args => Script.callValue call callee args

/-- What is started, on an engine of a host. -/
def start (host : Host) (fuel : Nat) (r : HostRun) : Script Value :=
  r.operation (host.call fuel)

/-- On an engine of the standard host, these are the runs that are offered for embedding. -/
theorem start_standard (fuel : Nat) (r : HostRun) : r.start .standard fuel =
    match r with
    | .eval source => Engine.eval fuel source
    | .evalIn source scope => Engine.evalIn fuel source scope
    | .call callee args => Engine.call fuel callee args := by
  cases r <;> rfl

theorem composed_operation (r : HostRun) : Script.Composed fun call => r.operation call := by
  cases r with
  | eval source => exact Script.composed_eval source
  | evalIn source scope => exact Script.composed_evalIn source scope
  | call callee args => exact Script.composed_callValue callee args

theorem relays_operation (r : HostRun) : Script.Relays fun call => r.operation call :=
  r.composed_operation.relays

/-- The run raises an error at a call stack. -/
def Raises (host : Host) (r : HostRun) (fuel : Nat) (e : Engine) (err : ScriptError)
    (stack : List Position) : Prop :=
  Script.Raises (Function.Raises host fuel) (fun call => r.operation call) (host.call fuel) e err
    stack

end HostRun

/-- The trace of an error that ends a run is the call stack at which the error was raised: one
position for each active frame, innermost first. An error in a source also has the place in the
source, in front of them. This is so for every host of which the functions and constructors catch
no errors and make none that has frames in its trace. -/
theorem error_trace_is_call_stack {host : Host} (hhost : host.All Script.Relays) {r : HostRun}
    {fuel : Nat} {e e' : Engine} {err : ScriptError}
    (h : r.start host fuel e = .error (.error err) e') :
    (∃ raised stack, r.Raises host fuel e raised stack) ∧
    ∀ raised stack, r.Raises host fuel e raised stack →
      ((∃ cause, raised = .runtime cause ∧ err.fault = .runtime cause) ∧ err.trace = stack) ∨
      ((∀ cause, err.fault ≠ .runtime cause) ∧ err.fault = raised.fault ∧
        ∃ place, raised.trace = [place] ∧ err.trace = place :: stack) := by
  rw [HostRun.start] at h
  constructor
  · obtain ⟨raised, stack, hraises, -⟩ :=
      r.relays_operation.raises h fun _ _ _ _ _ => Function.raises_of_error hhost
    exact ⟨raised, stack, hraises⟩
  · intro raised stack hraises
    obtain ⟨e₁, herror⟩ := Script.Raises.error hraises fun _ _ _ _ _ => Function.Raises.error
    have hfresh :=
      Script.Raises.fresh r.relays_operation hraises fun _ _ _ _ _ => Function.Raises.fresh hhost
    obtain rfl : err = raised.extend stack := by
      rw [h] at herror
      cases herror
      rfl
    rcases hfresh with ⟨cause, rfl⟩ | ⟨hfault, place, htrace⟩
    · exact .inl ⟨⟨cause, rfl, rfl⟩, rfl⟩
    · refine .inr ⟨hfault, rfl, place, htrace, ?_⟩
      rw [ScriptError.extend, htrace]
      rfl

/-- The error of a computation that failed. -/
def Outcome.err? {α : Type} : Outcome α → Option ScriptError
  | .error (.error err) _ => some err
  | _ => none

theorem Outcome.eq_of_err? {α : Type} {o : Outcome α} {err : ScriptError} (h : o.err? = some err) :
    ∃ e', o = .error (.error err) e' := by
  rcases o with ⟨a, e'⟩ | ⟨_ | _, e'⟩ <;> cases h
  exact ⟨e', rfl⟩

/-- A host whose constructors run a script that divides by zero. -/
def dividingHost : Host where
  run which call receiver args := Script.runHost call receiver args which
  construct _ _ call _ := do
    let _ ← Script.eval call "1 \\ 0;"
    return .counter 0

theorem dividingHost_all : dividingHost.All Script.Composed where
  run which receiver args := Script.composed_runHost receiver args which
  construct _ _ _ := (Script.composed_eval _).bind fun _ => .pure _

/-- An engine with a class that has a constructor, and a function that makes an instance of its
argument. -/
def makingEngine (limits : Limits) : Engine :=
  Outcome.engine (Engine.eval 30 "(function (c) \x7b return new c(); \x7d);"
    (Outcome.engine (Engine.registerClass { name := "C", constructor := some .counter }
      (Engine.create limits))))

/-- The function is called for the class, of which the constructor runs a script that divides by
zero: there are two active frames. -/
theorem error_trace_is_call_stack_nested : dividingHost.All Script.Relays ∧
    ∃ raised, (HostRun.call (.function ⟨26⟩) #[.classObj ⟨4⟩]).Raises dividingHost 40
      (makingEngine {}) raised [⟨1, 3⟩, ⟨1, 24⟩] := by
  have hhost : dividingHost.All Script.Relays := dividingHost_all.mono Script.Composed.relays
  have hends : Outcome.err? ((HostRun.call (.function ⟨26⟩) #[.classObj ⟨4⟩]).start dividingHost 40
      (makingEngine {})) = some ⟨.runtime .divisionByZero, [⟨1, 3⟩, ⟨1, 24⟩]⟩ := by
    decide +kernel
  obtain ⟨e', h⟩ := Outcome.eq_of_err? hends
  obtain ⟨⟨raised, stack, hraises⟩, hall⟩ := error_trace_is_call_stack hhost h
  refine ⟨hhost, raised, ?_⟩
  rcases hall raised stack hraises with ⟨-, htrace⟩ | ⟨hfault, -⟩
  · obtain rfl := htrace
    exact hraises
  · exact absurd rfl (hfault .divisionByZero)

end ScriptEngine
