import ScriptEngine.Proofs.Tame.Host
import ScriptEngine.Proofs.Window.Frame

/-!
# Runs stay in their windows

A new frame of a chunk that was built is allocated (`newFrame_allocated`), and no computation takes
its window away. So every instruction of a run finds the registers that it touches, whatever code
control goes through, and by induction on the fuel this holds of nested calls, too.

Main statement (`built_code_stays_in_window`), for every chunk that was built and every engine whose
code was built:

* all registers that an instruction of the chunk touches are in the window that a new frame of it
  gets;
* none of its instructions fails for a register outside of the window, wherever a frame of the chunk
  stands;
* nor does a run of the chunk, which leaves an engine of this kind.
-/

namespace ScriptEngine

/-- An end that leaves an engine whose code was built, and is no failure for a register outside of a
window. -/
structure Outcome.Inside {α : Type} (o : Outcome α) : Prop where
  built : o.engine.heap.Built
  inside : ∀ err e r, o = .error (.error err) e → err.fault ≠ .runtime (.registerOutside r)

variable {h : Heap} {call : Invoke} {f : Frame}

theorem Script.Contained.inside {α : Type} {m : Script α} {Q : α → Prop} {e : Engine}
    (hm : Script.Contained e.heap m Q) (he : e.heap.Built) : Outcome.Inside (m e) := by
  have hend := hm e he.leads
  generalize m e = o at hend ⊢
  cases o with
  | ok a e' => exact ⟨hend.1.built, fun _ _ _ herr => by cases herr⟩
  | error x e' =>
    refine ⟨hend.1.built, fun err e'' r herr => ?_⟩
    cases herr
    exact fun hfault => Bool.noConfusion (hend.2 _ hfault)

/-- A run of a frame from an index on. -/
theorem Frame.contained_run (hf : f.Allocated h) (hcall : call.Contained) (fuel pc : Nat) :
    Script.Contained h (f.run call fuel pc) fun _ => True := by
  induction fuel generalizing pc with
  | zero => exact .throw trivial
  | succ fuel ih =>
    unfold run
    split
    · exact .pure trivial
    · rename_i i hi
      have hstep : Script.Contained h (f.step call i) fun _ => True :=
        contained_step hf hcall fun r hr => hf.built.hasRegister (Array.mem_of_getElem? hi) hr
      refine (hstep.tracing i.position).bind fun flow _ => ?_
      cases flow with
      | next => exact ih (pc + 1)
      | jump target => exact ih target
      | leave v => exact .pure trivial

/-- Making a frame gives it a window of its own, of the size that its chunk needs. -/
theorem newFrame_allocated {c : Chunk} (hc : c.Built) (scope : ScopeRef) (receiver : Value)
    (args : Array Value) {e : Engine} (he : e.heap.Built) :
    ∃ f e', newFrame c scope receiver args e = .ok f e' ∧ f.chunk = c ∧
      e.heap.Leads e'.heap ∧ f.Allocated e'.heap := by
  let registers := c.initialWindow receiver args
  let h₁ := (e.heap.newWindow registers).2
  have h₁leads : e.heap.Leads h₁ := Heap.mild_newWindow registers e.heap he
  let w := (e.heap.newWindow registers).1
  let h₂ := (h₁.newScope (.activation scope w ∅ ∅)).2
  have h₂leads : h₁.Leads h₂ :=
    Heap.mild_of_same (f := fun h => (h.newScope (.activation scope w ∅ ∅)).2)
      (fun _ => ⟨rfl, rfl, rfl⟩) h₁ h₁leads.built
  let a := (h₁.newScope (.activation scope w ∅ ∅)).1
  have h₃leads := Heap.mild_setCell ⟨w, c.base⟩ (.scope a) h₂ h₂leads.built
  let f : Frame := { chunk := c, window := w, activation := a, base := c.base }
  have hf : f.Allocated h₁ := by
    refine ⟨hc, rfl, ?_, ?_⟩
    · show e.heap.windows.size < (e.heap.windows.push registers).size
      rw [Array.size_push]
      exact Nat.lt_succ_self _
    · rw [show h₁.window f.window = registers from
        (Heap.window_newWindow _ _).trans (if_pos rfl)]
      exact c.size_initialWindow receiver args
  have hleads := h₂leads.trans h₃leads
  exact ⟨f, _, rfl, rfl, h₁leads.trans hleads, hf.trans hleads⟩

theorem contained_enterFrame : Script.Contained h enterFrame fun _ => True := by
  exact Script.Contained.get.bind fun e he => .check rfl fun _ _ => ⟨he, trivial⟩

/-- A run of a chunk in a new frame. -/
theorem contained_execute (hcall : call.Contained) (fuel : Nat) {c : Chunk} (hc : c.Built)
    (scope : ScopeRef) (receiver : Value) (args : Array Value) :
    Script.Contained h (execute call fuel c scope receiver args) fun _ => True := by
  refine contained_enterFrame.bind fun _ _ => Script.Contained.andThen ?_ fun e he => he.leads
  refine Script.Contained.bind_over fun e he => ?_
  obtain ⟨f, e', hnew, -, hleads, hf⟩ := newFrame_allocated hc scope receiver args he
  refine ⟨f, e', hnew, hleads, ?_⟩
  exact (f.contained_run hf hcall fuel 0).andThen fun e he => Heap.mild_setCell _ _ e.heap he

/-- Calls of functions that were built, however much fuel they have. -/
theorem Host.contained_call {host : Host} (hhost : host.All Script.StaysContained) (n : Nat) :
    (host.call n).Contained := by
  induction n with
  | zero => exact fun _ _ _ _ => .throw trivial
  | succ n ih =>
    intro h f args hf
    unfold Host.call
    split
    · exact Host.contained_native hhost _ ih _ _
    · rename_i chunk hchunk
      exact Script.Contained.get.bind fun e _ => contained_execute ih n (hf chunk hchunk) _ _ _

/-! ## All code that was built -/

/-- All that code touches is in its window, if the code was made by emitting instructions: nothing
fails for a register outside, whether a compiler would make such code or not. -/
theorem built_code_stays_in_window {c : Chunk} (hc : c.Built) :
    (∀ (scope : ScopeRef) (receiver : Value) (args : Array Value) (e : Engine), e.heap.Built →
      ∃ f e', newFrame c scope receiver args e = .ok f e' ∧ f.chunk = c ∧ f.Allocated e'.heap ∧
        ∀ i ∈ c.code, ∀ r, i.Touches r →
          0 ≤ (f.base : Int) + r ∧ (f.base : Int) + r < (e'.heap.window f.window).size) ∧
    Host.standard.All Script.StaysContained ∧
    ∀ host : Host, host.All Script.StaysContained →
      (∀ (calls : Nat) (f : Frame) (e : Engine), e.heap.Built → f.Allocated e.heap → f.chunk = c →
        ∀ i ∈ c.code, Outcome.Inside (f.step (host.call calls) i e)) ∧
      ∀ (calls fuel : Nat) (scope : ScopeRef) (receiver : Value) (args : Array Value) (e : Engine),
        e.heap.Built → Outcome.Inside (execute (host.call calls) fuel c scope receiver args e) := by
  refine ⟨fun scope receiver args e he => ?_, Host.standard_staysContained, fun host hhost =>
    ⟨fun calls f e he hf hchunk i hi => ?_, fun calls fuel scope receiver args e he => ?_⟩⟩
  · obtain ⟨f, e', hnew, rfl, -, hf⟩ := newFrame_allocated hc scope receiver args he
    exact ⟨f, e', hnew, rfl, hf, fun i hi r hr => hf.index (hc.hasRegister hi hr)⟩
  · subst hchunk
    have hstep := Frame.contained_step hf (Host.contained_call hhost calls) fun r hr =>
      hc.hasRegister hi hr
    exact hstep.inside he
  · exact (contained_execute (Host.contained_call hhost calls) fuel hc scope receiver args).inside he

/-- No compiler makes an array of the registers from -3 to 4 and jumps to where there is no code. -/
theorem built_code_stays_in_window_range :
    let i : Instruction := ⟨.makeArray, 0, -3, 5, ⟨1, 1⟩⟩
    let c := (((Chunk.empty none).emit i).emit ⟨.jump, 0, 0, 0, ⟨1, 1⟩⟩).patchJump 1 99
    c.Built ∧ (Engine.create {}).heap.Built ∧
      ∃ f e', newFrame c ⟨0⟩ .void #[] (Engine.create {}) = .ok f e' ∧
        (∀ r, -3 ≤ r → r < 5 →
          0 ≤ (f.base : Int) + r ∧ (f.base : Int) + r < (e'.heap.window f.window).size) ∧
        Outcome.Inside (f.step (callWithin 2) i e') ∧
        Outcome.Inside (execute (callWithin 2) 3 c ⟨0⟩ .void #[] (Engine.create {})) := by
  intro i c
  have hc : c.Built := (((Chunk.Built.empty none).emit i).emit _).patchJump 1 99
  have he : (Engine.create {}).heap.Built := (Engine.intact_create {}).built
  have hi : i ∈ c.code := Array.mem_of_getElem? (show c.code[0]? = some i from rfl)
  obtain ⟨hframes, hstandard, hhosts⟩ := built_code_stays_in_window hc
  obtain ⟨hsteps, hruns⟩ := hhosts _ hstandard
  obtain ⟨f, e', hnew, hchunk, hf, hroom⟩ := hframes ⟨0⟩ .void #[] (Engine.create {}) he
  obtain ⟨_, _, hnew', -, hleads, -⟩ := newFrame_allocated hc ⟨0⟩ .void #[] he
  cases hnew.symm.trans hnew'
  exact ⟨hc, he, f, e', hnew, fun r hge hlt => hroom i hi r (.inr ⟨rfl, hge, hlt⟩),
    hsteps 2 f e' hleads.built hf hchunk i hi, hruns 2 3 _ _ _ _ he⟩

end ScriptEngine
