import ScriptEngine.Embedding
import ScriptEngine.Proofs.Tame.Frame

/-!
# Runs are tame

One instruction takes a frame from a place where it can go on to another such place: if the
instruction there takes a function, its register holds one (`Frame.Ready`). So whole runs of
compiled code are tame, and by induction on the fuel so are calls of all functions.
-/

namespace ScriptEngine

variable {ρ : Option Region} {call : Invoke} {f : Frame}

namespace Frame

/-- A frame is live and can go on at an index of its code. -/
structure Ready (f : Frame) (pc : Nat) (e : Engine) : Prop where
  live : f.Live e
  holds : ∀ i, f.chunk.code[pc]? = some i → i.op.takesFunction = true → f.Holds i.a e

/-- Where a frame goes on after an instruction. -/
def Continues (f : Frame) (pc : Nat) (flow : Flow) (e : Engine) : Prop :=
  match flow with
  | .next => f.Ready (pc + 1) e
  | .jump target => f.Ready target e
  | .leave _ => f.Live e

theorem ready_of_landing {t : Nat} {e : Engine} (ht : f.chunk.Landing t) (he : f.Live e) :
    f.Ready t e := by
  refine ⟨he, fun i hi htakes => ?_⟩
  rw [ht.2 i hi] at htakes
  cases htakes

/-- The instruction behind one that was performed finds the function it takes. -/
theorem ready_next (hf : f.Proper ρ) {pc : Nat} {i : Instruction} {e : Engine}
    (hi : f.chunk.code[pc]? = some i) (hlive : f.Live e)
    (hfill : f.chunk.Fills i i.a → f.Holds i.a e) : f.Ready (pc + 1) e := by
  refine ⟨hlive, fun j hj htakes => ?_⟩
  obtain ⟨k, -, hk, hkj⟩ := (hf.wellFormed.fits _ _ hj).filled htakes
  obtain rfl : i = k := Option.some.inj (hi.symm.trans hk)
  have ha : i.a = j.a := hkj.1
  rw [← ha] at hkj ⊢
  exact hfill hkj

theorem tame_jumpTo {pc : Nat} {target : Int}
    (ht : ∃ m : Nat, target = m ∧ f.chunk.Landing m) :
    Script.Tame ρ f.Live (jumpTo target) (f.Continues pc) := by
  obtain ⟨m, rfl, hm⟩ := ht
  unfold jumpTo
  rw [if_pos (Int.natCast_nonneg m)]
  exact .pure fun e he => ready_of_landing hm he

theorem tame_jumpIf (hf : f.Proper ρ) {pc : Nat} {i : Instruction}
    (hi : f.chunk.code[pc]? = some i) (ha : f.Has i.a)
    (ht : ∃ m : Nat, i.b = m ∧ f.chunk.Landing m) (hop : i.op ≠ .makeFunc ∧ i.op ≠ .loadConst)
    (wanted : Bool) : Script.Tame ρ f.Live (f.jumpIf i wanted) (f.Continues pc) := by
  refine Script.Tame.bind (Steady.read hf ha) fun v => .ite (fun _ => tame_jumpTo ht) fun _ => ?_
  refine .pure fun e he => ready_next hf hi he fun hfill => ?_
  rcases hfill.2 with h | ⟨h, -⟩
  · exact absurd h hop.1
  · exact absurd h hop.2

/-- One instruction of a frame that can go on. -/
theorem tame_step (hf : f.Proper ρ) (hcall : call.Calm ρ) {pc : Nat} {i : Instruction}
    (hi : f.chunk.code[pc]? = some i) :
    Script.Tame ρ (f.Ready pc) (f.step call i) (f.Continues pc) := by
  have hfits := hf.wellFormed.fits pc i hi
  have ha := (has_of_fits hfits).1
  have hlive : ∀ e, f.Ready pc e → f.Live e := fun _ h => h.live
  unfold step
  split
  · rename_i hop
    refine (tame_jumpTo (hfits.target i.a ?_)).consequence hlive fun _ _ h => h
    simp only [Instruction.target?, hop]
  · rename_i hop
    refine (tame_jumpIf hf hi ?_ (hfits.target i.b ?_) ?_ _).consequence hlive fun _ _ h => h
    · exact ha (by rw [hop]; rfl)
    · simp only [Instruction.target?, hop]
    · simp [hop]
  · rename_i hop
    refine (tame_jumpIf hf hi ?_ (hfits.target i.b ?_) ?_ _).consequence hlive fun _ _ h => h
    · exact ha (by rw [hop]; rfl)
    · simp only [Instruction.target?, hop]
    · simp [hop]
  · rename_i hop
    refine Script.Tame.bind ((Steady.read hf (ha (by rw [hop]; rfl))).consequence hlive
      fun _ _ h => h) fun v => .pure fun _ h => h
  · exact .pure fun e he => he.live
  · refine ((tame_perform hf hcall hfits).consequence (fun e he => ?_) fun _ _ h => h).bind
      fun _ => .pure fun e he => ready_next hf hi he.1 he.2
    exact ⟨he.live, he.holds i hi⟩

/-- A run of a frame that can go on. -/
theorem tame_run (hf : f.Proper ρ) (hcall : call.Calm ρ) (fuel pc : Nat) :
    Script.Tame ρ (f.Ready pc) (f.run call fuel pc) fun _ => f.Live := by
  induction fuel generalizing pc with
  | zero => exact .throw trivial
  | succ fuel ih =>
    unfold run
    split
    · exact .pure fun e he => he.live
    · rename_i i hi
      refine ((tame_step hf hcall hi).tracing i.position).bind fun flow => ?_
      cases flow with
      | next => exact ih (pc + 1)
      | jump target => exact ih target
      | leave v => exact .pure fun _ h => h

end Frame

/-! ## Frames -/

theorem size_placeArguments (window : Array Value) (base : Nat) (args : List Value) :
    (placeArguments window base args).size = window.size := by
  induction args generalizing window base with
  | nil => simp [placeArguments]
  | cons v args ih =>
    unfold placeArguments
    split
    · rfl
    · rw [ih, Array.size_setIfInBounds]

theorem Chunk.size_initialWindow (c : Chunk) (receiver : Value) (args : Array Value) :
    (c.initialWindow receiver args).size = c.windowSize := by
  rw [initialWindow, size_placeArguments, Array.size_setIfInBounds, Array.size_replicate]

theorem Chunk.WellFormed.landing_zero {c : Chunk} (hc : c.WellFormed) : c.Landing 0 := by
  refine ⟨Nat.zero_le _, fun i hi => ?_⟩
  by_contra h
  obtain ⟨j, hpos, -⟩ := (hc.fits 0 i hi).filled (by simpa using h)
  exact absurd hpos (lt_irrefl 0)

/-- A new window lies outside of every region. -/
theorem tame_newWindow (registers : Array Value) :
    Script.Tame ρ (fun _ => True) (Script.onHeap (·.newWindow registers)) fun w e =>
      (∀ r ∈ ρ, w ≠ r.window) ∧ e.heap.window w = registers := by
  refine .onHeap (fun h t hg => Heap.newWindow_graft hg.region _)
    (fun e _ _ => Heap.keeps_newWindow _) fun e hg _ _ => ⟨fun r hr hw => ?_, ?_⟩
  · have hlt := hg.region r hr
    rw [← hw] at hlt
    exact absurd hlt (lt_irrefl _)
  · exact (Heap.window_newWindow _ _).trans (if_pos rfl)

theorem register?_activation_empty (parent : ScopeRef) (w : WindowRef) (name : String) :
    (Scope.activation parent w ∅ ∅).register? name = none := by
  simp [Scope.register?]

/-- A new activation has the window that it is made for. -/
theorem tame_newActivation (parent : ScopeRef) (w : WindowRef) {F : Prop} {registers : Array Value} :
    Script.Tame ρ (fun e => F ∧ e.heap.window w = registers)
      (Script.onHeap (·.newScope (.activation parent w ∅ ∅))) fun a e =>
        F ∧ e.heap.window w = registers ∧ (e.heap.scope a).shape.2 = some w := by
  refine .onHeap (fun _ _ _ => rfl)
    (fun e _ _ => Heap.keeps_newScope (register?_activation_empty parent w))
    fun e _ he _ => ⟨he.1, he.2, ?_⟩
  rw [show (e.heap.newScope _).2.scope (e.heap.newScope _).1 = _ from
    (Heap.scope_newScope _ _).trans (if_pos rfl)]
  rfl

/-- A new frame has a window of its own, and can start. -/
theorem tame_newFrame {c : Chunk} (hc : c.Compiled) (scope : ScopeRef) (receiver : Value)
    (args : Array Value) :
    Script.Tame ρ (fun _ => True) (newFrame c scope receiver args) fun f e =>
      f.Proper ρ ∧ f.Ready 0 e := by
  refine (tame_newWindow _).bind fun w => (tame_newActivation scope w).bind fun a => ?_
  refine .assume fun hapart => ?_
  have hfree : (⟨w, c.base⟩ : Cell).Free ρ := fun r hr _ hw => absurd hw (hapart r hr)
  let f : Frame := { chunk := c, window := w, activation := a, base := c.base }
  have hproper : f.Proper ρ := ⟨hc, rfl, fun r hr hw => absurd hw (hapart r hr)⟩
  refine Script.Tame.bind (Q := fun _ => f.Live) ?_ fun _ => .pure fun e he =>
    ⟨hproper, Frame.ready_of_landing hc.wellFormed.landing_zero he⟩
  refine .modifyHeap (fun h t _ => Heap.setCell_graft hfree _)
    (fun e _ _ => Heap.keeps_setCell _ _) fun e _ he hx => ?_
  refine Frame.lasting_live f e _ hx ⟨?_, he.2⟩
  rw [show e.heap.window f.window = _ from he.1]
  exact c.size_initialWindow receiver args

theorem enterFrame_apply (e : Engine) : enterFrame e =
    if e.limits.maxCallDepth ≤ e.depth then .error (.runtime .callDepth) e
    else .ok () { e with depth := e.depth + 1 } := by
  by_cases h : e.limits.maxCallDepth ≤ e.depth
  · rw [if_pos h]
    simp only [enterFrame, Script.get_bind_apply, if_pos h]
    rfl
  · rw [if_neg h]
    simp only [enterFrame, Script.get_bind_apply, if_neg h]
    rfl

theorem calm_enterFrame : Script.Calm ρ enterFrame := by
  intro e hg _
  simp only [enterFrame_apply]
  by_cases h : e.limits.maxCallDepth ≤ e.depth
  · have h' : ∀ t, (e.graft ρ t).limits.maxCallDepth ≤ (e.graft ρ t).depth := fun _ => h
    simp only [if_pos h, if_pos (h' _)]
    exact ⟨Outcome.allowed_error hg (.refl _) (Failure.benign_runtime rfl), fun _ => rfl⟩
  · have h' : ∀ t, ¬(e.graft ρ t).limits.maxCallDepth ≤ (e.graft ρ t).depth := fun _ => h
    simp only [if_neg h, if_neg (h' _)]
    exact ⟨Outcome.allowed_ok hg (.refl _) trivial, fun _ => rfl⟩

/-- A run of a compiled chunk in a new frame. -/
theorem calm_execute (hcall : call.Calm ρ) (fuel : Nat) {c : Chunk} (hc : c.Compiled)
    (scope : ScopeRef) (receiver : Value) (args : Array Value) :
    Script.Calm ρ (execute call fuel c scope receiver args) := by
  refine calm_enterFrame.bind fun _ => Script.Tame.andThen (Q := fun _ _ => True) ?_
    (fun _ _ => rfl) fun e hg => ⟨hg, .refl _⟩
  refine (tame_newFrame hc scope receiver args).bind fun f => .assume fun hf => ?_
  refine (Frame.tame_run hf hcall fuel 0).andThen (fun e t => ?_) fun e hg =>
    Heap.keeps_setCell _ _ hg
  simp only [Engine.graft, Heap.setCell_graft (hf.free _)]

/-- Calls of compiled functions are calm, however much fuel they have. -/
theorem Host.calm_call {host : Host} (hhost : host.All Script.StaysCalm) (n : Nat) :
    (host.call n).Calm ρ := by
  induction n with
  | zero => exact fun _ _ _ => Script.Tame.throw trivial
  | succ n ih =>
    intro f args hf
    unfold Host.call
    split
    · exact Host.calm_native hhost ih _ _
    · rename_i chunk hchunk
      exact .get_bind (fun _ _ => rfl) fun e => calm_execute ih n (hf chunk hchunk) _ _ _

theorem calm_callWithin (n : Nat) : (callWithin n).Calm ρ :=
  Host.calm_call Host.standard_staysCalm n

end ScriptEngine
