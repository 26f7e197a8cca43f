import ScriptEngine.Proofs.Expression.Script
import ScriptEngine.Proofs.Registers.Grammar
import ScriptEngine.Proofs.Registers.Spared
import ScriptEngine.Proofs.Registers.Window
import ScriptEngine.Proofs.Statement.Watch
import ScriptEngine.Proofs.Tame.Host
import ScriptEngine.Proofs.Trace.Stack

/-!
# Registers keep their values

What a frame was called with stays in registers 0 and 1 for as long as the frame runs, since no
instruction writes them. While the code of an expression runs, the registers below its destination
keep their values too: the code is entered at its start and left through its end only
(`Statement.Segment`), and in between no instruction writes them.

Main statement: `expression_code_writes_from_its_destination_on`.
-/

namespace ScriptEngine

namespace Frame

variable {f : Frame} {r : Int} {call : Invoke} {e e' : Engine} {k pc pc' : Nat}

/-- An instruction, jumps included, leaves the temporaries alone that it does not write. -/
theorem spares_step (hf : f.Proper none) (hcall : call.Calm f.temps) {n : Nat} {i : Instruction}
    (hi : f.chunk.Fits n i) (hr : 0 ≤ r) (hw : r ∉ i.written) : f.Spares r (f.step call i) := by
  by_cases hop : i.op.moves = false
  · rw [step_eq_perform hop]
    exact (spares_perform hf hcall hi hr hw).bind fun _ => .pure _
  · have hjump : ∀ target, f.Spares r (jumpTo target) := fun _ => .ite (.pure _) .raise
    obtain ⟨op, a, b, c, place⟩ := i
    cases op <;> try exact absurd rfl hop
    case jump => exact hjump a
    case jumpFalse | jumpTrue => exact Spares.read.bind fun v => .ite (hjump b) (.pure _)
    case ret => exact Spares.read.bind fun v => .pure _
    case retVoid => exact .pure _

/-- An instruction leaves a frame sitting on its engine. -/
theorem sits_step (hf : f.Proper none) (hcall : call.Calm f.temps) {n : Nat} {i : Instruction}
    (hi : f.chunk.Fits n i) (he : f.Sits e) {flow : Flow} (h : f.step call i e = .ok flow e') :
    f.Sits e' := by
  -- A temporary that is not written, so that the rule applies.
  have hw : max |i.a| |i.b| + 1 ∉ i.written := fun hmem => by
    have := le_abs_self i.a
    have := le_abs_self i.b
    rcases Instruction.mem_written.1 hmem with ⟨-, heq⟩ | ⟨-, heq⟩ <;> omega
  have hpos : 0 ≤ max |i.a| |i.b| + 1 := by
    have := abs_nonneg i.a
    omega
  exact (spares_step hf hcall hi hpos hw e he flow e' h).1

theorem Passes.sits (h : f.Passes call k pc e pc' e') (hf : f.Proper none)
    (hcall : call.Calm f.temps) (he : f.Sits e) : f.Sits e' := by
  induction h with
  | stay => exact he
  | step hi hstep _ _ ih => exact ih (sits_step hf hcall (hf.wellFormed.fits _ _ hi) he hstep)

/-- A frame keeps a temporary that no instruction of its chunk writes. -/
theorem Passes.spares (h : f.Passes call k pc e pc' e') (hf : f.Proper none)
    (hcall : call.Calm f.temps) (he : f.Sits e) (hr : 0 ≤ r)
    (hw : ∀ (n : Nat) i, f.chunk.code[n]? = some i → r ∉ i.written) :
    f.contents e' r = f.contents e r := by
  induction h with
  | stay => rfl
  | @step _ pc _ _ _ _ _ i _ hi hstep _ _ ih =>
    obtain ⟨hsits, hsame⟩ := spares_step hf hcall (hf.wellFormed.fits pc i hi) hr (hw pc i hi) _ he
      _ _ hstep
    exact (ih hsits).trans hsame

/-- The registers from 0 up to but not including one hold what they held. -/
def KeepsBelow (f : Frame) (d : Int) (e e' : Engine) : Prop :=
  ∀ r, 0 ≤ r → r < d → f.contents e' r = f.contents e r

/-- Control goes from an instruction of a range forward, and not beyond the end of the range. -/
theorem index_of_stays {i : Instruction} {flow : Flow} {stop pc₁ : Nat} (hstays : i.Stays pc stop)
    (hpc : pc < stop) (hstep : f.step call i e = .ok flow e')
    (hflow : flow.index? pc = some pc₁) : pc < pc₁ ∧ pc₁ ≤ stop := by
  rcases flow_of_step hstep with rfl | ⟨m, rfl, htarget⟩ | hret
  · cases hflow
    exact ⟨Nat.lt_succ_self pc, hpc⟩
  · cases hflow
    obtain ⟨m, hm, hlt, hle⟩ := hstays.target _ htarget
    obtain rfl : pc₁ = m := Int.ofNat.inj hm
    exact ⟨hlt, hle⟩
  · exact absurd hret (not_or.2 hstays.goesOn)

/-- A frame goes through code forward only, so it comes to each instruction once at most. -/
inductive Crosses (call : Invoke) (f : Frame) : Nat → Nat → Engine → Nat → Engine → Prop where
  | stay (pc : Nat) (e : Engine) : Crosses call f 0 pc e pc e
  | step {k pc pc₁ pc' : Nat} {e e₁ e' : Engine} {i : Instruction} {flow : Flow}
      (hi : f.chunk.code[pc]? = some i) (hstep : f.step call i e = .ok flow e₁)
      (hflow : flow.index? pc = some pc₁) (hlt : pc < pc₁)
      (hrest : Crosses call f k pc₁ e₁ pc' e') : Crosses call f (k + 1) pc e pc' e'

theorem Crosses.passes (h : f.Crosses call k pc e pc' e') : f.Passes call k pc e pc' e' := by
  induction h with
  | stay pc e => exact .stay pc e
  | step hi hstep hflow _ _ ih => exact .step hi hstep hflow ih

/-- A frame that is in a range of code, all jumps of which go forward in it, stays inside until it
comes to the end of the range, and keeps the temporaries that the range does not write. -/
theorem Passes.inside {d : Int} {start stop : Nat} (h : f.Passes call k pc e pc' e')
    (hf : f.Proper none) (hcall : call.Calm f.temps) (he : f.Sits e)
    (hcode : ∀ n i, start ≤ n → n < stop → f.chunk.code[n]? = some i →
      i.Stays n stop ∧ ∀ r ∈ i.written, d ≤ r ∨ r < 0) (hstart : start ≤ pc) (hstop : pc < stop) :
    start ≤ pc' ∧ pc' < stop ∧ f.KeepsBelow d e e' ∨
      ∃ j ≤ k, ∃ e₁, f.Crosses call j pc e stop e₁ ∧ f.KeepsBelow d e e₁ ∧
        f.Passes call (k - j) stop e₁ pc' e' := by
  induction h with
  | stay => exact .inl ⟨hstart, hstop, fun _ _ _ => rfl⟩
  | @step k pc pc₁ pc' e e₁ e' i flow hi hstep hflow hrest ih =>
    obtain ⟨hstays, hwrites⟩ := hcode pc i hstart hstop hi
    have hfits := hf.wellFormed.fits pc i hi
    have hkept : f.KeepsBelow d e e₁ := fun r hr hd =>
      (spares_step hf hcall hfits hr (fun hmem => by have := hwrites r hmem; omega) e he flow e₁
        hstep).2
    obtain ⟨hlt, hle⟩ := index_of_stays hstays hstop hstep hflow
    rcases Nat.lt_or_eq_of_le hle with hin | rfl
    · rcases ih (sits_step hf hcall hfits he hstep) (hstart.trans hlt.le) hin with
        ⟨h₁, h₂, hsame⟩ | ⟨j, hj, e₂, hto, hsame, hfrom⟩
      · exact .inl ⟨h₁, h₂, fun r hr hd => (hsame r hr hd).trans (hkept r hr hd)⟩
      · refine .inr ⟨j + 1, Nat.succ_le_succ hj, e₂, .step hi hstep hflow hlt hto,
          fun r hr hd => (hsame r hr hd).trans (hkept r hr hd), ?_⟩
        rwa [Nat.add_sub_add_right]
    · exact .inr ⟨1, Nat.succ_le_succ (Nat.zero_le k), e₁, .step hi hstep hflow hlt (.stay _ _),
        hkept, hrest⟩

end Frame

/-- The code of an expression is entered at its start, left at its end, and writes from its
destination on. -/
theorem Compile.code_of_expression {fuel power : Nat} {first : Token} {dest : Int}
    {s s' : CompileState} {left : Operand} (hs : s.current.Settled)
    (hpower : Power.expression ≤ power) (hdest : 2 ≤ dest)
    (h : expressionWithin fuel first power dest s = .ok left s') :
    s.current.size < s'.current.size ∧ ∀ n i, s.current.size ≤ n → n < s'.current.size →
      s'.current.chunk.code[n]? = some i →
        i.Stays n s'.current.size ∧ ∀ r ∈ i.written, dest ≤ r ∨ r < 0 := by
  obtain ⟨hgrown, -⟩ := (adding_productions fuel).expression first power dest (fun _ => hpower) _ _
    s (.refl _) left s' h
  obtain ⟨hconfined, -⟩ := (confining_productions fuel).expression first (.inl ⟨hpower, hdest⟩) _ _
    (le_refl _) s (.refl hs dest) left s' h
  exact ⟨hgrown.more, fun n i hn _ hi => ⟨hgrown.stays n i hn List.not_mem_nil hi, fun r hr =>
    (hconfined.writes n i hn hi r hr).imp_right (·.2)⟩⟩

/-- The code of a chunk that a script is compiled to leaves registers 0 and 1 alone. -/
theorem Chunk.Compiled.restrained {c : Chunk} (hc : c.Compiled) {n : Nat} {i : Instruction}
    (hi : c.code[n]? = some i) : 0 ∉ i.written ∧ 1 ∉ i.written := by
  obtain ⟨source, root, hroot, hcontains⟩ := hc
  have hw := restrained_of_compile hroot c hcontains n i hi
  exact ⟨fun h => by have := hw 0 h; omega, fun h => by have := hw 1 h; omega⟩

/-- Registers are used with discipline. The code that is made of an expression, or of a statement
with the register for results as its destination, is appended to the code in front of it, of which
no instruction changes, and writes only registers from its destination on and registers of declared
locals; the functions around it are not touched. So no code of a compiled program writes register 0
or 1. A frame that runs such code, in a heap in order and for a host that adds nothing but what stays
calm, has its activation in register 0 and its receiver in register 1 throughout. Once it comes to
the code of an expression, it keeps all registers from 0 up to the destination until it is behind this
code, through which it goes forward only. -/
theorem expression_code_writes_from_its_destination_on :
    (∀ (fuel : Nat) (first : Token) (power : Nat) (dest : Int) (s s' : CompileState)
      (left : Operand), s.current.Settled → s.current.Sound → Power.Fits power dest →
      Compile.expressionWithin fuel first power dest s = .ok left s' →
        s.current.Confined dest s'.current ∧ s'.enclosing = s.enclosing) ∧
    (FunctionState.script.Settled ∧ FunctionState.script.Sound ∧
      ∀ named params, (FunctionState.function named params).Settled ∧
        (FunctionState.function named params).Sound) ∧
    (∀ (source : String) (root c : Chunk), compile source = .ok root → root.Contains c →
      ∀ (n : Nat) i, c.code[n]? = some i → 0 ∉ i.written ∧ 1 ∉ i.written) ∧
    ∀ host : Host, host.All Script.StaysCalm →
      ∀ (c : Chunk) (scope : ScopeRef) (receiver : Value) (args : Array Value) (e e₁ e' : Engine)
        (f : Frame) (calls k pc : Nat), c.Compiled → e.Intact →
      newFrame c scope receiver args e = .ok f e₁ → f.Passes (host.call calls) k 0 e₁ pc e' →
        f.contents e' 0 = .scope f.activation ∧ f.contents e' 1 = receiver ∧
        ∀ (fuel : Nat) (first : Token) (power : Nat) (dest : Int) (s s' : CompileState)
          (left : Operand), s.current.Settled → Power.expression ≤ power → 2 ≤ dest →
          Compile.expressionWithin fuel first power dest s = .ok left s' → pc = s.current.size →
          (∀ n, s.current.size ≤ n → n < s'.current.size →
            c.code[n]? = s'.current.chunk.code[n]?) →
          ∀ (k' pc' : Nat) (e'' : Engine), f.Passes (host.call calls) k' pc e' pc' e'' →
            s.current.size ≤ pc' ∧ pc' < s'.current.size ∧ f.KeepsBelow dest e' e'' ∨
              ∃ j ≤ k', ∃ e₂, f.Crosses (host.call calls) j pc e' s'.current.size e₂ ∧
                f.KeepsBelow dest e' e₂ ∧
                  f.Passes (host.call calls) (k' - j) s'.current.size e₂ pc' e'' := by
  refine ⟨fun fuel first power dest s s' left hs hsound hfits h => ⟨?_, ?_⟩,
    ⟨FunctionState.settled_script, FunctionState.sound_script, fun named params =>
      ⟨Compile.settled_function named params, Compile.sound_function named params⟩⟩,
    fun source root c hroot hcontains n i =>
      Chunk.Compiled.restrained ⟨source, root, hroot, hcontains⟩,
    fun host hhost c scope receiver args e e₁ e' f calls k pc hc he hnew hpasses => ?_⟩
  · exact ((Compile.confining_productions fuel).expression first hfits _ _ (le_refl _) s
      (.refl hs dest) left s' h).1
  · exact (((Compile.keeping_productions fuel).expression first power dest s hsound trivial).1 left
      s' h).2.1
  · obtain ⟨f', e', hnew', rfl, hproper, hsits⟩ := sits_newFrame hc he scope receiver args
    obtain ⟨rfl, rfl⟩ := EStateM.Result.ok.inj (hnew'.symm.trans hnew)
    have hcall : (host.call calls).Calm f'.temps := Host.calm_call hhost calls
    have hkept := fun r hr hw => hpasses.spares (r := r) hproper hcall hsits hr hw
    refine ⟨?_, ?_, fun fuel first power dest s s' left hs hpower hdest h hpc hsame k' pc' e'' h' =>
      ?_⟩
    · rw [hkept 0 (le_refl _) fun n i hi => (hc.restrained hi).1,
        Frame.contents_newFrame_activation hnew]
    · rw [hkept 1 (by decide) fun n i hi => (hc.restrained hi).2,
        Frame.contents_newFrame_receiver hnew]
    · subst hpc
      obtain ⟨hmore, hcode⟩ := Compile.code_of_expression hs hpower hdest h
      exact h'.inside hproper hcall (hpasses.sits hproper hcall hsits)
        (fun n i hn hlt hi => hcode n i hn hlt (hsame n hn hlt ▸ hi)) (le_refl _) hmore

/-- The state in front of the right operand of `true + 2`. -/
def behindTrue : CompileState :=
  { lexer := Lexer.ofText [';'],
    current := { chunk := (Chunk.empty none).emit ⟨.loadTrue, 2, 0, 0, ⟨1, 1⟩⟩ } }

theorem settled_behindTrue : behindTrue.current.Settled :=
  ⟨by decide, nofun, fun n inner h => by simp [behindTrue, Chunk.empty, Chunk.emit] at h⟩

/-- A run of `true + 2`, in front of the right operand. -/
theorem expression_code_writes_from_its_destination_on_sum :
    ∃ (root : Chunk) (f : Frame) (e₁ e₂ : Engine) (s' : CompileState) (left : Operand),
      compile "true + 2;" = .ok root ∧
      newFrame root ⟨0⟩ .void #[] (Engine.create {}) = .ok f e₁ ∧
      f.Passes (callWithin 5) 1 0 e₁ 1 e₂ ∧
      Compile.expressionWithin 5 ⟨.number (.ofNat 2), ⟨1, 8⟩⟩ 130 3 behindTrue = .ok left s' ∧
      behindTrue.current.Confined 3 s'.current ∧
      f.contents e₂ 0 = .scope f.activation ∧ f.contents e₂ 1 = .void ∧
      ∀ (k pc : Nat) (e₃ : Engine), f.Passes (callWithin 5) k 1 e₂ pc e₃ →
        1 ≤ pc ∧ pc < 2 ∧ f.KeepsBelow 3 e₂ e₃ ∨
          ∃ j ≤ k, ∃ e₄, f.Crosses (callWithin 5) j 1 e₂ 2 e₄ ∧ f.KeepsBelow 3 e₂ e₄ ∧
            f.Passes (callWithin 5) (k - j) 2 e₄ pc e₃ := by
  obtain ⟨hcall, -, -, hframe⟩ := expression_code_writes_from_its_destination_on
  have hcode : (compile "true + 2;").toOption.map (fun c => (c.code[0]?, c.code[1]?)) =
      some (some ⟨.loadTrue, 2, 0, 0, ⟨1, 1⟩⟩, some ⟨.loadConst, 3, 0, 0, ⟨1, 8⟩⟩) := by
    decide +kernel
  have hoperand : (match
        Compile.expressionWithin 5 ⟨.number (.ofNat 2), ⟨1, 8⟩⟩ 130 3 behindTrue with
      | .ok _ s' => some (s'.current.size, s'.current.chunk.code[1]?)
      | .error _ _ => none) = some (2, some ⟨.loadConst, 3, 0, 0, ⟨1, 8⟩⟩) := by
    decide +kernel
  obtain ⟨root, hroot, hcode⟩ := Option.map_eq_some_iff.1 hcode
  have hroot : compile "true + 2;" = .ok root := by
    rcases hc : compile "true + 2;" with x | c <;> rw [hc] at hroot <;> cases hroot
    rfl
  obtain ⟨hfirst, hsecond⟩ := Prod.mk.inj hcode
  obtain ⟨left, s', hs, hend, hload⟩ : ∃ left s',
      Compile.expressionWithin 5 ⟨.number (.ofNat 2), ⟨1, 8⟩⟩ 130 3 behindTrue = .ok left s' ∧
        s'.current.size = 2 ∧ s'.current.chunk.code[1]? = some ⟨.loadConst, 3, 0, 0, ⟨1, 8⟩⟩ := by
    split at hoperand
    · obtain ⟨hend, hload⟩ := Prod.mk.inj (Option.some.inj hoperand)
      exact ⟨_, _, ‹_›, hend, hload⟩
    · cases hoperand
  obtain ⟨f, e₁, hnew, hchunk, hproper, hsits⟩ :=
    sits_newFrame ⟨_, root, hroot, .refl _⟩ (Engine.intact_create {}) ⟨0⟩ .void #[]
  have hhas := (Frame.has_of_fits (hproper.wellFormed.fits 0 _ (hchunk ▸ hfirst))).1 rfl
  have hwrite : f.perform (callWithin 5) ⟨.loadTrue, 2, 0, 0, ⟨1, 1⟩⟩ e₁ =
      .ok () { e₁ with heap := e₁.heap.setCell (f.cell 2) (.ofBool true) } :=
    hsits.live.write hproper hhas (.ofBool true)
  have hstep : f.step (callWithin 5) ⟨.loadTrue, 2, 0, 0, ⟨1, 1⟩⟩ e₁ =
      .ok .next { e₁ with heap := e₁.heap.setCell (f.cell 2) (.ofBool true) } := by
    rw [Frame.step_eq_perform rfl, Script.bind_apply, hwrite]
    rfl
  have hpasses : f.Passes (callWithin 5) 1 0 e₁ 1 _ :=
    .step (hchunk ▸ hfirst) hstep rfl (.stay _ _)
  obtain ⟨hactivation, hreceiver, hsurvive⟩ :=
    hframe .standard Host.standard_staysCalm root ⟨0⟩ .void #[] _ e₁ _ f 5 1 1
      ⟨_, root, hroot, .refl _⟩ (Engine.intact_create {}) hnew hpasses
  have hsound : behindTrue.current.Sound :=
    ⟨(Chunk.sound_empty none).emit (Chunk.admits_plain rfl _ _ _ _ _), by decide, nofun⟩
  refine ⟨root, f, e₁, _, s', left, hroot, hnew, hpasses, hs, ?_, hactivation, hreceiver, ?_⟩
  · exact (hcall 5 _ 130 3 _ s' left settled_behindTrue hsound (.inl ⟨by decide, by decide⟩) hs).1
  · rw [← hend]
    refine hsurvive 5 _ 130 3 _ s' left settled_behindTrue (by decide) (by decide) hs rfl
      fun n hn hlt => ?_
    obtain rfl : n = 1 := by
      have : behindTrue.current.size = 1 := rfl
      omega
    rw [hsecond, hload]

end ScriptEngine
