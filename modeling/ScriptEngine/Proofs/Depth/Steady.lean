import ScriptEngine.Proofs.Composed.Operations
import ScriptEngine.Proofs.Tame.Host
import ScriptEngine.Proofs.Trace.Stack

/-!
# Computations leave the stack as they find it

A computation is *steady* if the engine that it leaves, by a result or by a failure, has as many
frames on the stack as the one that it started on, and the same limits. An operation that touches
the stack only by calls is *reentrant*; it may go on when a call fails. It is steady if the calls
that it makes are (`Reentrant.steady`); a frame is counted when it is entered and taken back on
every way out of it. By induction on the fuel all calls on the engine of a host are steady
(`Host.steady_call`), if what the host adds is reentrant, and so is all that a host can do
(`HostStep.steady`).
-/

namespace ScriptEngine

/-- Two engines with equally many frames on the stack, and the same limits. -/
structure Engine.Level (e e' : Engine) : Prop where
  depth : e'.depth = e.depth
  limits : e'.limits = e.limits

namespace Engine.Level

variable {e e₁ e₂ : Engine}

theorem refl (e : Engine) : e.Level e :=
  ⟨rfl, rfl⟩

theorem trans (h₁ : e.Level e₁) (h₂ : e₁.Level e₂) : e.Level e₂ :=
  ⟨h₂.depth.trans h₁.depth, h₂.limits.trans h₁.limits⟩

end Engine.Level

namespace Script

variable {α β : Type}

/-- A computation that leaves the stack as it finds it. -/
def Steady (m : Script α) : Prop :=
  ∀ e : Engine, e.Level (Outcome.engine (m e))

end Script

/-- Calls that leave the stack as they find it. -/
def Invoke.Steady (call : Invoke) : Prop :=
  ∀ f args, Script.Steady (call f args)

namespace Script

variable {α β : Type} {m : Script α}

theorem Steady.bind {k : α → Script β} (hm : Steady m) (hk : ∀ a, Steady (k a)) :
    Steady (m >>= k) := by
  intro e
  have hlevel := hm e
  rw [bind_apply]
  rcases h : m e with ⟨a, e₁⟩ | ⟨x, e₁⟩ <;> rw [h] at hlevel
  · exact hlevel.trans (hk a e₁)
  · exact hlevel

theorem Steady.modify {g : Engine → Engine} (hg : ∀ e : Engine, e.Level (g e)) :
    Steady (modify g : Script PUnit) :=
  hg

/-- Goes on with the result of a computation, or with its failure. -/
def attempt (m : Script α) (k : Except Failure α → Script β) : Script β := fun e =>
  match m e with
  | .ok a e' => k (.ok a) e'
  | .error x e' => k (.error x) e'

/-- An operation that touches the stack by calls only. In between it may do anything else, also when
a call has failed. -/
inductive Reentrant : {α : Type} → (Invoke → Script α) → Prop where
  | own {α : Type} {m : Script α} (hm : Steady m) : Reentrant fun _ => m
  | invoke (f : Function) (args : Array Value) : Reentrant fun call => call f args
  | attempt {α β : Type} {m : Invoke → Script α} {k : Except Failure α → Invoke → Script β}
      (hm : Reentrant m) (hk : ∀ r, Reentrant (k r)) :
      Reentrant fun call => (m call).attempt fun r => k r call

theorem Reentrant.bind {m : Invoke → Script α} {k : α → Invoke → Script β} (hm : Reentrant m)
    (hk : ∀ a, Reentrant (k a)) : Reentrant fun call => m call >>= fun a => k a call := by
  have hattempt := hm.attempt (k := fun r call => match r with
    | .ok a => k a call
    | .error x => throw x) fun r => by
      cases r with
      | ok a => exact hk a
      | error x => exact .own fun e => .refl e
  convert hattempt using 2 with call
  funext e
  rw [bind_apply, Script.attempt]
  rcases m call e with ⟨a, e'⟩ | ⟨x, e'⟩ <;> rfl

theorem Composed.reentrant {m : Invoke → Script α} (hm : Composed m) : Reentrant m := by
  induction hm with
  | pure | throw | get => exact .own fun e => .refl e
  | onHeap | note => exact .own fun e => ⟨rfl, rfl⟩
  | invoke f args => exact .invoke f args
  | bind _ _ ihm ihk => exact ihm.bind ihk

theorem closed_reentrant : Closed Reentrant :=
  ⟨Composed.reentrant, .bind⟩

/-- Only calls can change how many frames there are. -/
theorem Reentrant.steady {m : Invoke → Script α} (hm : Reentrant m) {call : Invoke}
    (hcall : call.Steady) : Steady (m call) := by
  induction hm with
  | own hm => exact hm
  | invoke f args => exact hcall f args
  | @attempt _ _ m k _ _ ihm ihk =>
    intro e
    have hlevel := ihm e
    simp only [Script.attempt]
    rcases hme : m call e with ⟨a, e'⟩ | ⟨x, e'⟩ <;> rw [hme] at hlevel
    · exact hlevel.trans (ihk (.ok a) e')
    · exact hlevel.trans (ihk (.error x) e')

theorem Composed.steady {m : Invoke → Script α} (hm : Composed m) {call : Invoke}
    (hcall : call.Steady) : Steady (m call) :=
  hm.reentrant.steady hcall

theorem Steady.tracing (place : Position) (hm : Steady m) : Steady (tracing place m) := by
  intro e
  have hlevel := hm e
  simp only [Script.tracing]
  rcases h : m e with ⟨a, e₁⟩ | ⟨err | _, e₁⟩ <;> rw [h] at hlevel <;> exact hlevel

end Script

/-! ## Frames and calls -/

theorem Frame.steady_run {call : Invoke} (hcall : call.Steady) (f : Frame) (fuel pc : Nat) :
    Script.Steady (f.run call fuel pc) := by
  induction fuel generalizing pc with
  | zero => exact fun e => .refl e
  | succ fuel ih =>
    rcases hi : f.chunk.code[pc]? with _ | i
    · simp only [Frame.run, hi]
      exact fun e => .refl e
    · simp only [Frame.run, hi]
      refine (((f.composed_step i).steady hcall).tracing _).bind fun flow => ?_
      cases flow with
      | next => exact ih _
      | jump target => exact ih _
      | leave v => exact fun e => .refl e

/-- A new frame is made in the heap alone. -/
theorem steady_newFrame (c : Chunk) (scope : ScopeRef) (receiver : Value) (args : Array Value) :
    Script.Steady (newFrame c scope receiver args) :=
  fun _ => ⟨rfl, rfl⟩

/-- A frame is left with what the run of the frame makes of the stack, less the frame itself. -/
theorem steady_execute {call : Invoke} (hcall : call.Steady) (fuel : Nat) (c : Chunk)
    (scope : ScopeRef) (receiver : Value) (args : Array Value) :
    Script.Steady (execute call fuel c scope receiver args) := by
  intro e
  rcases Nat.lt_or_ge e.depth e.limits.maxCallDepth with hroom | hfull
  · obtain ⟨f, e₁, hf⟩ : ∃ f e₁, newFrame c scope receiver args
        { e with depth := e.depth + 1 } = .ok f e₁ := ⟨_, _, rfl⟩
    have hnew := steady_newFrame c scope receiver args { e with depth := e.depth + 1 }
    have hrun := f.steady_run hcall fuel 0 e₁
    rw [hf] at hnew
    rw [execute_entered call fuel hroom hf]
    simp only [Script.andThen]
    rcases h : f.run call fuel 0 e₁ with ⟨v, e₂⟩ | ⟨x, e₂⟩
    all_goals
      rw [h] at hrun
      have hlevel := hnew.trans hrun
      exact ⟨Nat.sub_eq_of_eq_add hlevel.depth, hlevel.limits⟩
  · rw [execute_refused hfull]
    exact .refl e

/-- No call changes the number of frames on the stack, however it ends. -/
theorem Host.steady_call {host : Host} (hhost : host.All Script.Reentrant) (n : Nat) :
    (host.call n).Steady := by
  induction n with
  | zero => exact fun _ _ e => .refl e
  | succ n ih =>
    intro g args
    rcases hg : g.body with native | chunk
    · rw [Function.call_native host hg]
      exact (hhost.native Script.closed_reentrant g.receiver args native).steady ih
    · intro e
      rw [Function.call_script host hg]
      exact steady_execute ih n chunk _ _ _ e

theorem steady_callWithin (n : Nat) : (callWithin n).Steady :=
  Host.steady_call (Host.standard_all.mono Script.Composed.reentrant) n

/-! ## Hosts -/

namespace Script

theorem composed_setGlobal (name : String) (v : Value) : Composed fun _ => setGlobal name v := by
  have hset : Composed fun _ => get >>= fun e => modifyHeap (·.define e.globalScope name v) :=
    Composed.get.bind fun _ => .modifyHeap _
  exact hset

theorem composed_installMember (c : ClassRef) (name : String) (n : Native) :
    Composed fun _ => installMember c name n :=
  (Composed.newFunction _).bind fun _ => .modifyHeap _

theorem composed_installProperty (c : ClassRef) (name : String) (getter : Native)
    (setter : Option Native) : Composed fun _ => installProperty c name getter setter :=
  (Composed.newProperty _).bind fun _ => .modifyHeap _

theorem composed_forIn {α : Type} (items : List α) {turn : α → Invoke → Script (ForInStep PUnit)}
    (h : ∀ a, Composed (turn a)) :
    Composed fun call => forIn items PUnit.unit fun a _ => turn a call := by
  induction items with
  | nil =>
    simp only [List.forIn_nil]
    exact .pure _
  | cons a items ih =>
    simp only [List.forIn_cons]
    refine (h a).bind fun r => ?_
    cases r with
    | done _ => exact .pure _
    | yield _ => exact ih

theorem composed_installString (c : ClassRef) : Composed fun _ => installString c := by
  refine (composed_installProperty c _ _ _).bind fun _ => Composed.bind ?_ fun _ => .pure _
  exact composed_forIn _ fun x => (composed_installMember c x.1 _).bind fun _ => .pure _

theorem composed_installArray (c : ClassRef) : Composed fun _ => installArray c := by
  refine (composed_installProperty c _ _ _).bind fun _ => ?_
  refine (composed_installProperty c _ _ _).bind fun _ => Composed.bind ?_ fun _ => .pure _
  exact composed_forIn _ fun x => (composed_installMember c x.1 _).bind fun _ => .pure _

theorem composed_install : Composed fun _ => install := by
  refine Composed.get.bind fun e => ?_
  refine (composed_installMember e.numberClass _ _).bind fun _ => ?_
  refine (composed_installString e.stringClass).bind fun _ => ?_
  refine (composed_installArray e.arrayClass).bind fun _ => ?_
  refine (composed_setGlobal _ _).bind fun _ => (composed_setGlobal _ _).bind fun _ => ?_
  refine (composed_setGlobal _ _).bind fun _ => (composed_setGlobal _ _).bind fun _ => ?_
  exact (Composed.newFunction _).bind fun f => composed_setGlobal _ f

end Script

namespace Engine

/-- A new engine has no frames, and the limits that it was made with. -/
theorem level_create (limits : Limits) : (bare limits).Level (create limits) := by
  have hlevel := Script.composed_install.steady (steady_callWithin 0) (bare limits)
  unfold create EStateM.run
  generalize Script.install (bare limits) = o at hlevel ⊢
  cases o <;> exact hlevel

variable {host : Host} (hhost : host.All Script.Reentrant)

include hhost

/-- What a host does leaves the stack as it is. -/
theorem HostStep.steady {α : Type} {m : Script α} (h : HostStep host α m) : Script.Steady m := by
  have hcall (fuel : Nat) : (host.call fuel).Steady := Host.steady_call hhost fuel
  cases h with
  | eval fuel source => exact (Script.composed_eval source).steady (hcall fuel)
  | evalIn fuel source scope => exact (Script.composed_evalIn source scope).steady (hcall fuel)
  | call fuel callee args => exact (Script.composed_callValue callee args).steady (hcall fuel)
  | runChunk fuel c receiver args _ =>
    exact fun e => steady_execute (hcall fuel) fuel c _ receiver args e
  | setGlobal name v => exact (Script.composed_setGlobal name v).steady (hcall 0)
  | getMember fuel v key => exact (Script.composed_getMember v key).steady (hcall fuel)
  | setMember fuel v key x => exact (Script.composed_setMember v key x).steady (hcall fuel)
  | removeMember v key => exact (Script.composed_removeMember v key).steady (hcall 0)
  | registerClass c =>
    refine Script.Steady.bind (fun e => ⟨rfl, rfl⟩) fun r => ?_
    refine ((Script.composed_setGlobal _ _).steady (hcall 0)).bind fun _ => ?_
    exact Script.Steady.bind (.modify fun e => ⟨rfl, rfl⟩) fun _ => fun e => .refl e
  | wrap name payload =>
    have hfound : Script.Composed fun _ => class? name :=
      Script.Composed.get.bind fun _ => .pure _
    refine (hfound.steady (hcall 0)).bind fun found => ?_
    cases found with
    | none => exact fun e => .refl e
    | some c => exact fun e => ⟨rfl, rfl⟩
  | newArray | newDict | newScope | hostFunction | counterProperty | doubledProperty | newClass =>
    exact fun e => ⟨rfl, rfl⟩

/-- Between two steps of the host there are no frames on the stack. -/
theorem Reachable.depth {e : Engine} (h : e.Reachable host) : e.depth = 0 := by
  induction h with
  | create limits => exact (level_create limits).depth
  | step _ hstep ih => exact ((hstep.steady hhost) _).depth.trans ih

end Engine

end ScriptEngine
