import ScriptEngine.Proofs.Tame.Machine

/-!
# Engines of a host stay intact

An engine is *intact* if its heap is guarded, with no region to guard against. New engines are
intact, and everything that a host does with an engine keeps it so, provided that the functions and
constructors that the host adds are calm as long as calls are (`Script.StaysCalm`).
-/

namespace ScriptEngine

/-- All code that an engine can run was compiled, and its variables are inside their windows. -/
def Engine.Intact (e : Engine) : Prop :=
  e.heap.Guarded none

/-- An end that leaves an intact engine, and is no fault of the machine. -/
structure Outcome.Safe {α : Type} (o : Outcome α) : Prop where
  intact : o.engine.Intact
  benign : ∀ f e, o = .error f e → f.Benign

namespace Script

variable {ρ : Option Region}

/-- On an intact engine, a calm computation ends safely. -/
theorem Calm.safe {α : Type} {m : Script α} (hm : Calm none m) {e : Engine} (he : e.Intact) :
    Outcome.Safe (m e) := by
  obtain ⟨hallow, -⟩ := hm e he trivial
  exact ⟨hallow.guarded, hallow.benign⟩

theorem calm_setGlobal (name : String) (v : Value) : Calm none (setGlobal name v) := by
  intro e hg _
  obtain ⟨hg', hx⟩ := Heap.keeps_define e.globalScope name v hg
  exact ⟨Outcome.allowed_ok hg' hx trivial, fun _ => rfl⟩

theorem calm_setMemberOf (c : ClassRef) (name : String) (v : Value) :
    Calm ρ (modifyHeap (·.setMember c name v)) :=
  .modifyHeap_same (fun _ _ => rfl) fun _ => ⟨rfl, rfl, rfl, rfl⟩

theorem calm_installMember (c : ClassRef) (name : String) (n : Native) :
    Calm ρ (installMember c name n) :=
  (calm_newFunction (Function.compiled_native n _ _ _)).bind fun f => calm_setMemberOf c name f

theorem calm_installProperty (c : ClassRef) (name : String) (getter : Native)
    (setter : Option Native) : Calm ρ (installProperty c name getter setter) := by
  refine (calm_newProperty ⟨fun f hf => ?_, fun f hf => ?_⟩).bind fun p => calm_setMemberOf c name p
  · cases hf
    exact Function.compiled_native _ _ _ _
  · obtain ⟨n, -, rfl⟩ := Option.map_eq_some_iff.1 hf
    exact Function.compiled_native _ _ _ _

/-- A loop over a list is calm if its turns are. -/
theorem calm_forIn {α : Type} (items : List α) {turn : α → Script (ForInStep PUnit)}
    (h : ∀ a, Calm ρ (turn a)) : Calm ρ (forIn items PUnit.unit fun a _ => turn a) := by
  induction items with
  | nil =>
    rw [List.forIn_nil]
    exact .pure _
  | cons a items ih =>
    rw [List.forIn_cons]
    refine (h a).bind fun r => ?_
    cases r with
    | done _ => exact .pure _
    | yield _ => exact ih

theorem calm_installString (c : ClassRef) : Calm ρ (installString c) := by
  refine (calm_installProperty c _ _ _).bind fun _ => Calm.bind ?_ fun _ => .pure _
  exact calm_forIn _ fun x => (calm_installMember c x.1 _).bind fun _ => .pure _

theorem calm_installArray (c : ClassRef) : Calm ρ (installArray c) := by
  refine (calm_installProperty c _ _ _).bind fun _ => ?_
  refine (calm_installProperty c _ _ _).bind fun _ => Calm.bind ?_ fun _ => .pure _
  exact calm_forIn _ fun x => (calm_installMember c x.1 _).bind fun _ => .pure _

theorem calm_install : Calm none install := by
  refine .get_bind (fun _ _ => rfl) fun e => ?_
  refine (calm_installMember e.numberClass _ _).bind fun _ => ?_
  refine (calm_installString e.stringClass).bind fun _ => ?_
  refine (calm_installArray e.arrayClass).bind fun _ => ?_
  refine (calm_setGlobal _ _).bind fun _ => (calm_setGlobal _ _).bind fun _ => ?_
  refine (calm_setGlobal _ _).bind fun _ => (calm_setGlobal _ _).bind fun _ => ?_
  exact (calm_newFunction (Function.compiled_native _ _ _ _)).bind fun f => calm_setGlobal _ f

end Script

namespace Engine

theorem intact_bare (limits : Limits) : (bare limits).Intact := by
  refine ⟨fun f hf => ?_, fun p hp => ?_, fun s name c hc => ?_, nofun⟩
  · simp [bare] at hf
  · simp [bare] at hp
  · have hscope : ∃ parent vars, (bare limits).heap.scope s = .named parent vars := by
      simp only [bare, Heap.scope, Array.getD_eq_getD_getElem?]
      rcases s with ⟨_ | n⟩
      · exact ⟨none, ∅, rfl⟩
      · exact ⟨none, ∅, by simp [default]⟩
    obtain ⟨parent, vars, hs⟩ := hscope
    rw [hs] at hc
    cases hc

/-- A new engine is intact. -/
theorem intact_create (limits : Limits) : (create limits).Intact := by
  have hintact := (Script.calm_install.safe (intact_bare limits)).intact
  unfold create EStateM.run
  generalize Script.install (bare limits) = o at hintact ⊢
  cases o <;> exact hintact

/-! ## What a host does -/

theorem calm_newScope (parent : Option ScopeRef) : Script.Calm none (newScope parent) :=
  .onHeap (fun _ _ _ => rfl) fun _ => Heap.keeps_newScope fun _ => rfl

theorem calm_hostFunction (f : HostFunction) : Script.Calm none (hostFunction f) :=
  Script.calm_newFunction (Function.compiled_native _ _ _ _)

theorem calm_counterProperty : Script.Calm none counterProperty :=
  Script.calm_newProperty ⟨fun _ hf => (by cases hf; exact Function.compiled_native _ _ _ _),
    fun _ hf => by cases hf; exact Function.compiled_native _ _ _ _⟩

theorem calm_doubledProperty : Script.Calm none doubledProperty :=
  Script.calm_newProperty ⟨fun _ hf => (by cases hf; exact Function.compiled_native _ _ _ _),
    nofun⟩

theorem calm_newClass (c : HostClass) (instantiable : Bool) :
    Script.Calm none (newClass c instantiable) :=
  .onHeap (fun _ _ _ => rfl) fun _ => Heap.keeps_of_same rfl rfl rfl rfl

theorem calm_registerClass (c : HostClass) : Script.Calm none (registerClass c) := by
  refine (calm_newClass c true).bind fun r => (Script.calm_setGlobal _ _).bind fun _ => ?_
  refine Script.Calm.bind ?_ fun _ => .pure _
  exact Script.Tame.modify (fun _ => rfl) fun _ _ => rfl

theorem calm_wrap (name : String) (payload : Payload) : Script.Calm none (wrap name payload) := by
  refine Script.Calm.bind (.get_bind (fun _ _ => rfl) fun _ => .pure _) fun found => ?_
  split
  · exact .raise rfl
  · refine .ofHeap (fun _ _ _ => rfl) fun h _ => Script.Calm.bind ?_ fun _ => .pure _
    exact .onHeap (fun _ _ _ => Heap.newInstance_graft _ _) fun _ =>
      Heap.keeps_of_same rfl rfl rfl rfl

/-- What a host can do with an engine that runs no code but compiled code. -/
inductive HostStep (host : Host) : (α : Type) → Script α → Prop
  | eval (fuel : Nat) (source : String) : HostStep host _ (Script.eval (host.call fuel) source)
  | evalIn (fuel : Nat) (source : String) (scope : ScopeRef) :
      HostStep host _ (Script.evalIn (host.call fuel) source scope)
  | call (fuel : Nat) (callee : Value) (args : Array Value) :
      HostStep host _ (Script.callValue (host.call fuel) callee args)
  | runChunk (fuel : Nat) (c : Chunk) (receiver : Value) (args : Array Value) : c.Compiled →
      HostStep host _ (do execute (host.call fuel) fuel c (← get).globalScope receiver args)
  | setGlobal (name : String) (v : Value) : HostStep host _ (Script.setGlobal name v)
  | getMember (fuel : Nat) (v key : Value) :
      HostStep host _ (Script.getMember (host.call fuel) v key)
  | setMember (fuel : Nat) (v key x : Value) :
      HostStep host _ (Script.setMember (host.call fuel) v key x)
  | removeMember (v key : Value) : HostStep host _ (Script.removeMember v key)
  | newArray (items : Array Value) : HostStep host _ (Script.newArray items)
  | newDict (entries : Dict) : HostStep host _ (Script.newDict entries)
  | newScope (parent : Option ScopeRef) : HostStep host _ (newScope parent)
  | hostFunction (f : HostFunction) : HostStep host _ (hostFunction f)
  | counterProperty : HostStep host _ counterProperty
  | doubledProperty : HostStep host _ doubledProperty
  | newClass (c : HostClass) (instantiable : Bool) : HostStep host _ (newClass c instantiable)
  | registerClass (c : HostClass) : HostStep host _ (registerClass c)
  | wrap (name : String) (payload : Payload) : HostStep host _ (wrap name payload)

/-- The engines that a host can come to. -/
inductive Reachable (host : Host) : Engine → Prop
  | create (limits : Limits) : Reachable host (create limits)
  | step {e : Engine} {α : Type} {m : Script α} :
      Reachable host e → HostStep host α m → Reachable host (Outcome.engine (m e))

variable {host : Host} (hhost : host.All Script.StaysCalm)

include hhost

theorem HostStep.calm {α : Type} {m : Script α} (h : HostStep host α m) : Script.Calm none m := by
  have hcall (fuel : Nat) : (host.call fuel).Calm none := Host.calm_call hhost fuel
  cases h with
  | eval fuel source => exact Script.calm_eval (hcall fuel) source
  | evalIn fuel source scope => exact Script.calm_evalIn (hcall fuel) source scope
  | call fuel callee args => exact Script.calm_callValue (hcall fuel) callee args
  | runChunk fuel c receiver args hc =>
    exact .get_bind (fun _ _ => rfl) fun _ => calm_execute (hcall fuel) fuel hc _ _ _
  | setGlobal name v => exact Script.calm_setGlobal name v
  | getMember fuel v key => exact Script.calm_getMember (hcall fuel) v key
  | setMember fuel v key x => exact Script.calm_setMember (hcall fuel) v key x
  | removeMember v key => exact Script.calm_removeMember v key
  | newArray items => exact Script.calm_newArray items
  | newDict entries => exact Script.calm_newDict entries
  | newScope parent => exact calm_newScope parent
  | hostFunction f => exact calm_hostFunction f
  | counterProperty => exact calm_counterProperty
  | doubledProperty => exact calm_doubledProperty
  | newClass c instantiable => exact calm_newClass c instantiable
  | registerClass c => exact calm_registerClass c
  | wrap name payload => exact calm_wrap name payload

/-- Every engine that a host can come to is intact. -/
theorem Reachable.intact {e : Engine} (h : e.Reachable host) : e.Intact := by
  induction h with
  | create limits => exact intact_create limits
  | step _ hstep ih => exact ((hstep.calm hhost).safe ih).intact

end Engine

end ScriptEngine
