import ScriptEngine.Proofs.Parameters.Defaults
import ScriptEngine.Proofs.Results.Twins

/-!
# What is returned behind the last statement

A script, or a function, that ends without a return statement returns what is in the register for
results. All statements use this register: not only expression statements leave their value there,
but also conditions, initial values and declarations. A run goes through parts of the code and
through instructions between them (`Frame.Visits`). The latter write nothing, so what is returned
was left by the part that ran last, whatever it is a part of. It is the value of the last expression
statement if no other part ran behind that.

Main statement: `falling_off_returns_what_the_last_part_left`.
-/

namespace ScriptEngine

/-- A part that a frame went through, and what it left in the register for results. -/
structure Visit where
  part : CodePart
  value : Value

namespace Visit

/-- What the last of the parts left. -/
def last? (visits : List Visit) : Option Value :=
  visits.getLast?.map Visit.value

/-- The value of the last expression statement, or else void. -/
def lastExpression (visits : List Visit) : Value :=
  (last? (visits.filter (·.part.kind = .expression))).getD .void

theorem last?_cons (v : Visit) (visits : List Visit) :
    last? (v :: visits) = some ((last? visits).getD v.value) := by
  rw [last?, last?, List.getLast?_cons]
  rcases visits.getLast? with _ | w <;> rfl

/-- If the last part is an expression statement, its value is that of the last one. -/
theorem lastExpression_of_last {visits : List Visit}
    (h : ∀ v ∈ visits.getLast?, v.part.kind = .expression) :
    lastExpression visits = (last? visits).getD .void := by
  rcases List.eq_nil_or_concat visits with rfl | ⟨before, v, rfl⟩
  · rfl
  · have hv : v.part.kind = .expression := h v (by simp)
    simp [lastExpression, last?, hv]

end Visit

/-- A frame goes through a number of instructions, from one index to another. The list tells which
parts of the code it goes through, in this order. -/
inductive Frame.Visits (call : Invoke) (f : Frame) (parts : List CodePart) :
    Nat → Nat → Engine → List Visit → Nat → Engine → Prop where
  | stay (pc : Nat) (e : Engine) : Visits call f parts 0 pc e [] pc e
  | between {k pc pc₁ pc' : Nat} {e e₁ e' : Engine} {i : Instruction} {flow : Flow}
      {visits : List Visit} (hout : CodePart.Outside parts pc) (hi : f.chunk.code[pc]? = some i)
      (hstep : f.step call i e = .ok flow e₁) (hflow : flow.index? pc = some pc₁)
      (hrest : Visits call f parts k pc₁ e₁ visits pc' e') :
      Visits call f parts (k + 1) pc e visits pc' e'
  | through {j k pc' : Nat} {e e₁ e' : Engine} {p : CodePart} {visits : List Visit}
      (hp : p ∈ parts) (hcross : f.Crosses call j p.start e p.stop e₁)
      (hrest : Visits call f parts k p.stop e₁ visits pc' e') :
      Visits call f parts (j + k) p.start e (⟨p, f.contents e₁ resultRegister⟩ :: visits) pc' e'

/-! ## Runs through divided code -/

/-- Behind a part, no other part has begun. -/
theorem Chunk.Divided.edge_stop {c : Chunk} {parts : List CodePart} (h : c.Divided parts)
    {p : CodePart} (hp : p ∈ parts) : CodePart.Edge parts p.stop := by
  have hstart := (h.closed p hp).1
  let Apart (x y : CodePart) : Prop := x.stop ≤ y.start ∨ y.stop ≤ x.start ∨ x = y
  have hsymm : Std.Symm Apart := ⟨fun x y hxy => by
    rcases hxy with hxy | hxy | rfl
    · exact .inr (.inl hxy)
    · exact .inl hxy
    · exact .inr (.inr rfl)⟩
  have hpair : parts.Pairwise Apart := h.apart.imp fun hle => .inr (.inl hle)
  intro q hq
  rcases hpair.forall_of_forall (fun x _ => .inr (.inr rfl)) hq hp with hbefore | hbehind | rfl
  · exact .inr (by omega)
  · exact .inl hbehind
  · exact .inr (le_refl _)

namespace Frame

variable {f : Frame} {call : Invoke} {parts : List CodePart} {k pc pc' : Nat} {e e' : Engine}

/-- A return leaves the frame. -/
theorem leave_of_return {i : Instruction} {flow : Flow} (hop : i.op = .ret ∨ i.op = .retVoid)
    (h : f.step call i e = .ok flow e') : flow.index? pc = none := by
  obtain ⟨op, a, b, c, place⟩ := i
  rcases hop with rfl | rfl
  · change (f.read a >>= fun v => pure (Flow.leave v)) e = _ at h
    rw [Script.bind_apply] at h
    split at h <;> cases h
    rfl
  · cases h
    rfl

/-- An instruction between parts does not lead into the middle of one. -/
theorem edge_of_step (hc : f.chunk.Divided parts) (hout : CodePart.Outside parts pc)
    {i : Instruction} (hi : f.chunk.code[pc]? = some i) {flow : Flow} {pc₁ : Nat}
    (hstep : f.step call i e = .ok flow e') (hflow : flow.index? pc = some pc₁) :
    CodePart.Edge parts pc₁ := by
  rcases flow_of_step hstep with rfl | ⟨m, rfl, htarget⟩ | hret
  · cases hflow
    exact hout.edge_succ
  · cases hflow
    obtain ⟨m, hm, -, hedge⟩ := (hc.between pc i hi hout).2 _ htarget
    obtain rfl : pc₁ = m := Int.ofNat.inj hm
    exact hedge
  · rw [leave_of_return hret hstep] at hflow
    cases hflow

/-- A run from the edge of a part to an instruction between parts is a sequence of visits. -/
theorem Passes.visits (hc : f.chunk.Divided parts) (hf : f.Proper none)
    (hcall : call.Calm f.temps) (h : f.Passes call k pc e pc' e') (he : f.Sits e)
    (hedge : CodePart.Edge parts pc) (hout' : CodePart.Outside parts pc') :
    ∃ visits, f.Visits call parts k pc e visits pc' e' := by
  induction k using Nat.strong_induction_on generalizing pc e with
  | _ k ih =>
    by_cases hout : CodePart.Outside parts pc
    · cases h with
      | stay => exact ⟨[], .stay _ _⟩
      | @step k _ pc₁ _ _ e₁ _ i flow hi hstep hflow hrest =>
        have hsits := sits_step hf hcall (hf.wellFormed.fits pc i hi) he hstep
        obtain ⟨visits, hvisits⟩ := ih k (Nat.lt_succ_self k) hrest hsits
          (edge_of_step hc hout hi hstep hflow)
        exact ⟨visits, .between hout hi hstep hflow hvisits⟩
    · -- The run is at the start of a part, and it does not end inside of it.
      obtain ⟨p, hp, hin⟩ : ∃ p ∈ parts, ¬(pc < p.start ∨ p.stop ≤ pc) := by
        by_contra hnone
        exact hout fun p hp => by_contra fun h => hnone ⟨p, hp, h⟩
      obtain rfl : pc = p.start := by
        have := hedge p hp
        omega
      obtain ⟨hlt, -, hstays⟩ := hc.closed p hp
      rcases h.inside hf hcall he (d := 0) (fun n i hn hn' hi => ⟨hstays n i hn hn' hi,
          fun r _ => le_or_gt 0 r⟩) (le_refl _) hlt with
        ⟨hle, hin', -⟩ | ⟨j, hj, e₁, hcross, -, hrest⟩
      · have := hout' p hp
        omega
      · have hpos : j ≠ 0 := by
          rintro rfl
          generalize p.stop = stop at hcross hlt
          cases hcross
          exact lt_irrefl _ hlt
        obtain ⟨visits, hvisits⟩ := ih (k - j) (by omega) hrest (hcross.passes.sits hf hcall he)
          (hc.edge_stop hp)
        have hthrough := Visits.through hp hcross hvisits
        rw [Nat.add_sub_cancel' hj] at hthrough
        exact ⟨_, hthrough⟩

/-- What is in the register for results was left there by the last part visited. -/
theorem Visits.contents_result {visits : List Visit}
    (h : f.Visits call parts k pc e visits pc' e') (hc : f.chunk.Divided parts)
    (hf : f.Proper none) (hcall : call.Calm f.temps) (he : f.Sits e) :
    f.contents e' resultRegister =
      (Visit.last? visits).getD (f.contents e resultRegister) := by
  induction h with
  | stay => rfl
  | @between k pc _ _ e e₁ _ i flow visits hout hi hstep _ _ ih =>
    have hwritten : resultRegister ∉ i.written := by
      rw [(hc.between pc i hi hout).1]
      exact List.not_mem_nil
    obtain ⟨hsits, hsame⟩ := spares_step hf hcall (hf.wellFormed.fits pc i hi) (by decide) hwritten
      e he flow e₁ hstep
    rw [ih hsits, hsame]
  | through hp hcross _ ih =>
    rw [ih (hcross.passes.sits hf hcall he), Visit.last?_cons, Option.getD_some]

/-- The register for results of a new frame is void. -/
theorem contents_newFrame_result {c : Chunk} {scope : ScopeRef} {receiver : Value}
    {args : Array Value} {e₁ : Engine} (h : newFrame c scope receiver args e = .ok f e₁) :
    f.contents e₁ resultRegister = .void := by
  have hindex : ((f.base : Int) + resultRegister).toNat = c.base + 2 := by
    rw [(chunk_newFrame h).2, resultRegister]
    omega
  have hsize : c.base + 2 < c.windowSize := lt_of_lt_of_le (by omega) (Nat.le_max_right _ _)
  rw [contents, cell, hindex, cell?_newFrame h, if_neg (by omega),
    Chunk.getElem?_initialWindow hsize, if_neg (by omega), if_neg (by omega)]
  rfl

/-- An instruction that only loads a value into the register for results. -/
theorem step_loadResult (hf : f.Proper none) (hcall : call.Calm f.temps) (he : f.Sits e)
    (hhas : f.Has resultRegister) {i : Instruction} (hi : f.chunk.code[pc]? = some i)
    (hmoves : i.op.moves = false) {v : Value}
    (hload : f.perform call i = f.write resultRegister v) :
    ∃ e', f.step call i e = .ok .next e' ∧ f.Sits e' ∧ f.contents e' resultRegister = v := by
  have hstep : f.step call i e = .ok .next _ :=
    step_of_perform hmoves (hload ▸ he.live.write hf hhas v)
  exact ⟨_, hstep, sits_step hf hcall (hf.wellFormed.fits pc i hi) he hstep,
    contents_setCell_self hf he.live hhas v⟩

/-- A frame at the return behind the last statement. -/
theorem run_return {y z : Int} {place : Position} (hf : f.Proper none) (he : f.Sits e)
    (hret : f.chunk.code[pc]? = some ⟨.ret, resultRegister, y, z, place⟩) (fuel : Nat) :
    f.run call (fuel + 1) pc e = .ok (f.contents e resultRegister) e := by
  have hhas : f.Has resultRegister := (has_of_fits (hf.wellFormed.fits _ _ hret)).1 rfl
  rw [run_succ hret]
  simp only [Script.tracing, step, Script.bind_apply, read_apply hf hhas he.live]
  rfl

end Frame

/-! ## The result -/

/-- What a run of a chunk returns that ends behind the last statement: the value that the last part
left, or void if there was none. This is the value of the last expression statement if no other part
ran behind it. The functions that the host adds need only be calm as long as calls are. -/
def Chunk.FallsOff (parts : List CodePart) (c : Chunk) : Prop :=
  c.Compiled → ∀ host : Host, host.All Script.StaysCalm →
    ∀ (scope : ScopeRef) (receiver : Value) (args : Array Value) (e e₁ e' : Engine) (f : Frame)
      (calls k : Nat), e.Intact → newFrame c scope receiver args e = .ok f e₁ →
    f.Passes (host.call calls) k 0 e₁ (c.code.size - 1) e' →
    (∃ visits, f.Visits (host.call calls) parts k 0 e₁ visits (c.code.size - 1) e') ∧
    ∀ visits, f.Visits (host.call calls) parts k 0 e₁ visits (c.code.size - 1) e' →
      ∀ fuel, k < fuel →
        f.run (host.call calls) fuel 0 e₁ = .ok ((Visit.last? visits).getD .void) e' ∧
        ((∀ v ∈ visits.getLast?, v.part.kind = .expression) →
          f.run (host.call calls) fuel 0 e₁ = .ok (Visit.lastExpression visits) e')

theorem Chunk.DividedToEnd.fallsOff {c : Chunk} {parts : List CodePart}
    (h : c.DividedToEnd parts) : c.FallsOff parts := by
  intro hc host hhost scope receiver args e e₁ e' f calls k he hnew hpasses
  obtain ⟨f', e₂, hnew', rfl, hproper, hsits⟩ := sits_newFrame hc he scope receiver args
  obtain ⟨rfl, rfl⟩ := EStateM.Result.ok.inj (hnew'.symm.trans hnew)
  have hcall : (host.call calls).Calm f'.temps := Host.calm_call hhost calls
  have hedge : CodePart.Edge parts 0 := fun p _ => .inl (Nat.zero_le _)
  refine ⟨hpasses.visits h.toDivided hproper hcall hsits hedge h.outside,
    fun visits hvisits fuel hfuel => ?_⟩
  have hlast := hvisits.contents_result h.toDivided hproper hcall hsits
  rw [Frame.contents_newFrame_result hnew] at hlast
  have hrun : f'.run (host.call calls) fuel 0 e₂ = .ok ((Visit.last? visits).getD .void) e' := by
    obtain ⟨rest, rfl⟩ : ∃ rest, fuel = rest + 1 + k := ⟨fuel - 1 - k, by omega⟩
    obtain ⟨y, z, place, hret⟩ := h.last
    rw [hpasses.run, Frame.run_return hproper (hpasses.sits hproper hcall hsits) hret, hlast]
  exact ⟨hrun, fun hexpression => by rw [Visit.lastExpression_of_last hexpression, hrun]⟩

/-- What a chunk of its own is made from: the text of a script, or a function in the middle of a
compilation, behind its parameters. -/
inductive ChunkSource where
  | script (source : String)
  | function (fuel : Nat) (named : Option String) (params : List String) (s : CompileState)

namespace ChunkSource

/-- The chunk is what the compiler makes. -/
def Compiles (c : Chunk) : ChunkSource → Prop
  | script source => compile source = .ok c
  | function fuel named params s =>
    ∃ s', Compile.functionChunk (Compile.productions fuel) named params s = .ok c s'

/-- The chunk is what the twin of the compiler makes, which marks these parts of it. -/
def Divides (c : Chunk) (parts : List CodePart) : ChunkSource → Prop
  | script source => divide source = .ok (c, parts)
  | function fuel named params s =>
    ∃ s', Division.functionChunk (Division.divider fuel) named params [] s = .ok (c, parts) s'

/-- What compiles is divided. -/
theorem Compiles.divides {c : Chunk} {source : ChunkSource} (h : source.Compiles c) :
    ∃ parts, source.Divides c parts ∧ c.DividedToEnd parts := by
  cases source with
  | script source => exact divide_of_compile h
  | function fuel named params s =>
    obtain ⟨s', h⟩ := h
    obtain ⟨parts, hdivide, hdivided⟩ :=
      Compile.divides_functionChunk (Compile.sound_divider fuel) named params s [] rfl c s' h
    exact ⟨parts, ⟨s', hdivide⟩, hdivided⟩

end ChunkSource

/-- The result of a script, and of a function, that ends behind its last statement: it is what the
part of the code left that ran last. Parts are the expression statements, but also the declarations
and the expressions in heads of statements, which all use the same register. So the result is the
value of the last expression statement only if no part of another kind ran behind it; it is void if
no part ran at all. -/
theorem falling_off_returns_what_the_last_part_left {source : ChunkSource} {c : Chunk}
    (h : source.Compiles c) : ∃ parts, source.Divides c parts ∧ c.FallsOff parts := by
  obtain ⟨parts, hdivide, hdivided⟩ := h.divides
  exact ⟨parts, hdivide, hdivided.fallsOff⟩

/-- The code of `true; if (false) {}`. -/
def conditionBehindTrue : Array Instruction :=
  #[⟨.loadTrue, 2, 0, 0, ⟨1, 1⟩⟩, ⟨.loadFalse, 2, 0, 0, ⟨1, 11⟩⟩, ⟨.jumpFalse, 2, 3, 0, ⟨1, 16⟩⟩,
    ⟨.ret, 2, 0, 0, ⟨1, 20⟩⟩]

/-- The value of the only expression statement is true, but the condition behind it is false, and
that is what the script returns. -/
theorem falling_off_returns_what_the_last_part_left_condition :
    ∃ (c : Chunk) (parts : List CodePart) (f : Frame) (e₁ e' : Engine) (visits : List Visit),
      compile "true; if (false) \x7b\x7d" = .ok c ∧
      divide "true; if (false) \x7b\x7d" = .ok (c, parts) ∧
      parts = [⟨.head, 1, 2⟩, ⟨.expression, 0, 1⟩] ∧
      newFrame c ⟨0⟩ .void #[] (Engine.create {}) = .ok f e₁ ∧
      f.Visits (callWithin 5) parts 3 0 e₁ visits 3 e' ∧
      f.run (callWithin 5) 4 0 e₁ = .ok ((Visit.last? visits).getD .void) e' ∧
      f.run (callWithin 5) 4 0 e₁ = .ok (.ofBool false) e' := by
  have hcode : (divide "true; if (false) \x7b\x7d").toOption.map (fun r => (r.1.code, r.2)) =
      some (conditionBehindTrue, [⟨.head, 1, 2⟩, ⟨.expression, 0, 1⟩]) := by
    decide +kernel
  have hcompiles : (compile "true; if (false) \x7b\x7d").toOption.isSome = true := by
    decide +kernel
  obtain ⟨c, hroot⟩ : ∃ c, compile "true; if (false) \x7b\x7d" = .ok c := by
    rcases hc : compile "true; if (false) \x7b\x7d" with x | c
    · rw [hc] at hcompiles
      cases hcompiles
    · exact ⟨c, rfl⟩
  have hscript : (ChunkSource.script "true; if (false) \x7b\x7d").Compiles c := hroot
  obtain ⟨parts, hdivide, hfalls⟩ := falling_off_returns_what_the_last_part_left hscript
  rw [hdivide] at hcode
  obtain ⟨hcode, hparts⟩ := Prod.mk.inj (Option.some.inj hcode)
  have hcompiled : c.Compiled := ⟨_, c, hroot, .refl _⟩
  obtain ⟨f, e₁, hnew, hchunk, hproper, hsits⟩ :=
    sits_newFrame hcompiled (Engine.intact_create {}) ⟨0⟩ .void #[]
  have hcall : (callWithin 5).Calm f.temps := calm_callWithin 5
  have hget : ∀ (n : Nat) i, conditionBehindTrue[n]? = some i → f.chunk.code[n]? = some i :=
    fun n i hi => by rw [hchunk, show c.code = conditionBehindTrue from hcode, hi]
  have hhas : f.Has resultRegister :=
    (Frame.has_of_fits (hproper.wellFormed.fits 3 _ (hget 3 _ rfl))).1 rfl
  obtain ⟨e₂, hfirst, hsits₂, -⟩ := Frame.step_loadResult hproper hcall hsits hhas
    (hget 0 _ rfl) rfl (v := .ofBool true) rfl
  obtain ⟨e₃, hsecond, hsits₃, hfalse⟩ := Frame.step_loadResult hproper hcall hsits₂ hhas
    (hget 1 _ rfl) rfl (v := .ofBool false) rfl
  have hthird : f.step (callWithin 5) ⟨.jumpFalse, 2, 3, 0, ⟨1, 16⟩⟩ e₃ = .ok (.jump 3) e₃ := by
    have hread := Frame.read_apply hproper hhas hsits₃.live
    rw [hfalse] at hread
    change (f.read resultRegister >>= fun v => _) e₃ = _
    rw [Script.bind_apply, hread]
    rfl
  have hpasses : f.Passes (callWithin 5) 3 0 e₁ 3 e₃ :=
    .step (hget 0 _ rfl) hfirst rfl <| .step (hget 1 _ rfl) hsecond rfl <|
      .step (hget 2 _ rfl) hthird rfl (.stay _ _)
  have hend : c.code.size - 1 = 3 := by rw [show c.code = conditionBehindTrue from hcode]; rfl
  obtain ⟨⟨visits, hvisits⟩, hrun⟩ := hfalls hcompiled .standard Host.standard_staysCalm ⟨0⟩ .void
    #[] _ e₁ e₃ f 5 3 (Engine.intact_create {}) hnew (hend ▸ hpasses)
  refine ⟨c, parts, f, e₁, e₃, visits, hroot, hdivide, hparts, hnew, hend ▸ hvisits,
    (hrun visits hvisits 4 (by decide)).1, ?_⟩
  rw [show 4 = 1 + 3 from rfl, hpasses.run 1, Frame.run_return hproper hsits₃ (hget 3 _ rfl),
    hfalse]

end ScriptEngine
