import ScriptEngine.Proofs.Parameters.Literal
import ScriptEngine.Proofs.Registers.Kept

/-!
# Defaults are evaluated where the function is made

A frame that comes to the code of a function literal goes through the code of its defaults, one
after the other and through each of them once (`Frame.Evaluates`). The value of a default stays in
its register while those behind it are evaluated, since their code writes higher registers only
(`Passes.inside`). So the function that is made at the end takes the values of all defaults with
it (`FunctionLiteral.function`).
-/

namespace ScriptEngine

/-- The function that a literal makes in a scope: the values of its defaults are fixed. -/
def FunctionLiteral.function (l : FunctionLiteral) (scope : ScopeRef) (defaults : List Value) :
    Function :=
  { body := .script l.chunk, scope := some scope, defaults := defaults.toArray }

/-- A frame evaluates the defaults of parameters in order, each of them once, into registers from
one on. A parameter without a default gets void. -/
inductive Frame.Evaluates (call : Invoke) (f : Frame) :
    Int → List Parameter → Engine → List Value → Engine → Prop where
  | nil (register : Int) (e : Engine) : Evaluates call f register [] e [] e
  | cons {k : Nat} {register : Int} {p : Parameter} {ps : List Parameter} {e e₁ e' : Engine}
      {vs : List Value}
      (hcross : f.Crosses call k p.start.current.size e p.stop.current.size e₁)
      (hvoid : p.default? = none → f.contents e₁ register = .void)
      (hrest : Evaluates call f (register + 1) ps e₁ vs e') :
      Evaluates call f register (p :: ps) e (f.contents e₁ register :: vs) e'

/-- A row depends on its registers only. -/
theorem Row.congr {T T' : Int → Value} {first : Int} {vs : List Value} (h : Row T first vs)
    (hT : ∀ r, first ≤ r → r < first + vs.length → T' r = T r) : Row T' first vs := by
  induction vs generalizing first with
  | nil => trivial
  | cons v vs ih =>
    simp only [List.length_cons] at hT
    exact ⟨(hT first (le_refl _) (by omega)).trans h.1,
      ih h.2 fun r hr hlt => hT r (by omega) (by omega)⟩

/-! ## The code of a default -/

namespace Parameter

variable {p : Parameter} {fuel : Nat} {register : Int}

/-- The code of a default is left at its end, and writes from its register on. -/
theorem Compiled.code (h : p.Compiled fuel register) (hs : p.start.current.Settled)
    (hr : 2 ≤ register) : p.start.current.size < p.stop.current.size ∧
      ∀ n i, p.start.current.size ≤ n → n < p.stop.current.size →
        p.stop.current.chunk.code[n]? = some i →
          i.Stays n p.stop.current.size ∧ ∀ r ∈ i.written, register ≤ r ∨ r < 0 := by
  unfold Compiled at h
  split at h
  · obtain ⟨left, hleft⟩ := h
    exact Compile.code_of_expression hs (by decide) hr hleft
  · obtain ⟨place, m, hm⟩ := h
    rw [Compile.emitAt_apply] at hm
    obtain ⟨-, hstop⟩ := EStateM.Result.ok.inj hm
    have hsize : p.stop.current.size = p.start.current.size + 1 := by
      rw [← hstop]
      exact Array.size_push _
    refine ⟨by omega, fun n i hn hlt hi => ?_⟩
    obtain rfl : n = p.start.current.size := by omega
    obtain rfl : i = ⟨.loadVoid, register, 0, 0, place⟩ := by
      rw [← hstop] at hi
      exact Option.some.inj (hi.symm.trans Array.getElem?_push_size)
    exact ⟨Instruction.stays_of_goesOn rfl _ _, fun r hr => .inl (List.mem_singleton.1 hr).ge⟩

/-- Each default has code. -/
theorem Laid.length_le {c : Chunk} {ps : List Parameter} {start stop : Nat}
    (h : Laid c fuel register ps start stop) (hr : 2 ≤ register) : start + ps.length ≤ stop := by
  induction ps generalizing register start with
  | nil => exact le_of_eq h
  | cons p ps ih =>
    obtain ⟨hsettled, hcompiled, rfl, -, hrest⟩ := h
    have := (hcompiled.code hsettled hr).1
    have := ih hrest (by omega)
    rw [List.length_cons]
    omega

/-- The code of a parameter without a default is an instruction. -/
theorem Compiled.loadsVoid (h : p.Compiled fuel register) (hp : p.default? = none) :
    p.stop.current.size = p.start.current.size + 1 ∧ ∃ place,
      p.stop.current.chunk.code[p.start.current.size]? =
        some ⟨.loadVoid, register, 0, 0, place⟩ := by
  unfold Compiled at h
  rw [hp] at h
  obtain ⟨place, m, hm⟩ := h
  rw [Compile.emitAt_apply] at hm
  obtain ⟨-, hstop⟩ := EStateM.Result.ok.inj hm
  rw [← hstop]
  exact ⟨Array.size_push _, place, Array.getElem?_push_size⟩

end Parameter

namespace Frame

variable {f : Frame} {call : Invoke} {k pc pc' fuel start stop : Nat} {e e' e₁ : Engine}
  {register : Int} {ps : List Parameter} {r s : Int}

/-! ## Single instructions -/

theorem Crosses.le (h : f.Crosses call k pc e pc' e') : pc ≤ pc' := by
  induction h with
  | stay => exact le_refl _
  | step _ _ _ hlt _ ih => exact hlt.le.trans ih

theorem Crosses.eq_of_stay (h : f.Crosses call k pc e pc e') : e' = e := by
  cases h with
  | stay => rfl
  | step _ _ _ hlt hrest => exact absurd hrest.le (Nat.not_le.2 hlt)

theorem step_of_perform {i : Instruction} (hop : i.op.moves = false)
    (h : f.perform call i e = .ok () e₁) : f.step call i e = .ok .next e₁ := by
  rw [step_eq_perform hop, Script.bind_apply, h]
  rfl

/-- A frame that goes through code is still there, or it has gone through. -/
theorem Crosses.past {j : Nat} (hcross : f.Crosses call j pc e stop e₁)
    (h : f.Passes call k pc e pc' e') :
    pc ≤ pc' ∧ pc' < stop ∨ ∃ i, k = i + j ∧ f.Passes call i stop e₁ pc' e' := by
  induction hcross generalizing k with
  | stay => exact .inr ⟨k, rfl, h⟩
  | step hi hstep hflow hlt hrest ih =>
    cases h with
    | stay => exact .inl ⟨le_refl _, hlt.trans_le hrest.le⟩
    | step hi' hstep' hflow' hrest' =>
      obtain rfl := Option.some.inj (hi.symm.trans hi')
      obtain ⟨rfl, rfl⟩ := EStateM.Result.ok.inj (hstep.symm.trans hstep')
      obtain rfl := Option.some.inj (hflow.symm.trans hflow')
      rcases ih hrest' with ⟨hstart, hstop⟩ | ⟨i, rfl, hfrom⟩
      · exact .inl ⟨hlt.le.trans hstart, hstop⟩
      · exact .inr ⟨i, rfl, hfrom⟩

theorem Crosses.next {i : Instruction} (h : f.Crosses call k pc e (pc + 1) e')
    (hi : f.chunk.code[pc]? = some i) (hstep : f.step call i e = .ok .next e₁) : e' = e₁ := by
  cases h with
  | @step j _ pc₁ _ _ e₂ _ i' flow hi' hstep' hflow _ hrest =>
    obtain rfl : i = i' := Option.some.inj (hi.symm.trans hi')
    obtain ⟨rfl, rfl⟩ := EStateM.Result.ok.inj (hstep.symm.trans hstep')
    cases hflow
    exact hrest.eq_of_stay

variable (hf : f.Proper none)

include hf

theorem contents_setCell_self (he : f.Live e) (hr : f.Has r) (v : Value) :
    f.contents { e with heap := e.heap.setCell (f.cell r) v } r = v := by
  rw [contents, Heap.cell?_setCell_self (hf.inside hr he), Option.getD_some]

theorem contents_setCell_ne (hr : f.Has r) (hs : f.Has s) (hne : r ≠ s) (v : Value) :
    f.contents { e with heap := e.heap.setCell (f.cell r) v } s = f.contents e s := by
  have hcell : f.cell r ≠ f.cell s := fun heq => by
    have hindex : ((f.base : Int) + r).toNat = ((f.base : Int) + s).toNat := congrArg Cell.index heq
    have := (hf.index hr).1
    have := (hf.index hs).1
    omega
  rw [contents, contents]
  show ((e.heap.setCell (f.cell r) v).cell? (f.cell s)).getD .void = _
  rw [Heap.cell?_setCell, if_neg fun h => hcell h.1]

/-- An instruction that loads void. -/
theorem Crosses.void {place : Position} (h : f.Crosses call k pc e (pc + 1) e') (he : f.Sits e)
    (hi : f.chunk.code[pc]? = some ⟨.loadVoid, register, 0, 0, place⟩) :
    f.contents e' register = .void := by
  have hhas := (has_of_fits (hf.wellFormed.fits pc _ hi)).1 rfl
  rw [h.next hi (step_of_perform rfl (he.live.write hf hhas .void))]
  exact contents_setCell_self hf he.live hhas .void

/-! ## All defaults -/

/-- A frame that comes to the code of defaults is still there, or it has evaluated all of them. -/
theorem Passes.evaluates (h : f.Passes call k start e pc' e') (hcall : call.Calm f.temps)
    (he : f.Sits e) (hlaid : Parameter.Laid f.chunk fuel register ps start stop)
    (hr : 2 ≤ register) :
    start ≤ pc' ∧ pc' < stop ∨ ∃ j ≤ k, ∃ vs e₁, f.Evaluates call register ps e vs e₁ ∧
      vs.length = ps.length ∧ Row (f.contents e₁) register vs ∧ f.KeepsBelow register e e₁ ∧
        f.Sits e₁ ∧ f.Passes call (k - j) stop e₁ pc' e' := by
  induction ps generalizing k register start e with
  | nil =>
    obtain rfl : start = stop := hlaid
    exact .inr ⟨0, Nat.zero_le k, [], e, .nil register e, rfl, trivial, fun _ _ _ => rfl, he, h⟩
  | cons p ps ih =>
    obtain ⟨hsettled, hcompiled, rfl, hsame, hrest⟩ := hlaid
    obtain ⟨hmore, hcode⟩ := hcompiled.code hsettled hr
    have hle := hrest.le (by omega)
    rcases h.inside hf hcall he (fun n i hn hlt hi => hcode n i hn hlt (hsame n hn hlt ▸ hi))
      (le_refl _) hmore with ⟨hstart, hstop, -⟩ | ⟨j, hj, e₁, hcross, hkept, hfrom⟩
    · exact .inl ⟨hstart, hstop.trans_le hle⟩
    · have hsits := hcross.passes.sits hf hcall he
      have hvoid : p.default? = none → f.contents e₁ register = .void := fun hp => by
        obtain ⟨hsize, place, hload⟩ := hcompiled.loadsVoid hp
        rw [hsize] at hcross
        exact hcross.void hf he ((hsame _ (le_refl _) hmore).trans hload)
      rcases ih hfrom hsits hrest (by omega) with ⟨hstart, hstop⟩ |
        ⟨j', hj', vs, e₂, hevaluates, hlength, hrow, hkept', hsits', hfrom'⟩
      · exact .inl ⟨hmore.le.trans hstart, hstop⟩
      · have hvalue : f.contents e₂ register = f.contents e₁ register :=
          hkept' register (by omega) (by omega)
        refine .inr ⟨j + j', by omega, f.contents e₁ register :: vs, e₂,
          .cons hcross hvoid hevaluates, by rw [List.length_cons, List.length_cons, hlength],
          ⟨hvalue, hrow⟩, fun r hr' hlt => ?_, hsits', ?_⟩
        · exact (hkept' r hr' (by omega)).trans (hkept r hr' hlt)
        · rwa [← Nat.sub_sub]

/-! ## The function -/

/-- The engine with a new function in a register. -/
def putFunction (f : Frame) (r : Int) (g : Function) (e : Engine) : Engine :=
  { e with heap :=
      (e.heap.newFunction g).2.setCell (f.cell r) (.function ⟨e.heap.functions.size⟩) }

theorem write_newFunction (he : f.Live e) (hr : f.Has r) (g : Function) :
    (Script.newFunction g >>= f.write r) e = .ok () (f.putFunction r g e) :=
  Live.write (e := { e with heap := (e.heap.newFunction g).2 }) hf ⟨he.size, he.activation⟩ hr _

omit hf in
theorem function_putFunction (g : Function) :
    (f.putFunction r g e).heap.function ⟨e.heap.functions.size⟩ = g := by
  show (e.heap.functions.push g).getD e.heap.functions.size default = g
  rw [Array.getD_eq_getD_getElem?, Array.getElem?_push_size, Option.getD_some]

theorem contents_putFunction_self (he : f.Live e) (hr : f.Has r) (g : Function) :
    f.contents (f.putFunction r g e) r = .function ⟨e.heap.functions.size⟩ :=
  contents_setCell_self (e := { e with heap := (e.heap.newFunction g).2 }) hf
    ⟨he.size, he.activation⟩ hr _

theorem contents_putFunction_ne (hr : f.Has r) (hs : f.Has s) (hne : r ≠ s) (g : Function) :
    f.contents (f.putFunction r g e) s = f.contents e s :=
  contents_setCell_ne (e := { e with heap := (e.heap.newFunction g).2 }) hf hr hs hne _

variable {c : Chunk} {place : Position} {dest index : Int} {vs : List Value} {ref : FunctionRef}

theorem step_loadTemplate (he : f.Live e) (hk : f.chunk.constantAt? index = some (.template c))
    (hi : f.chunk.code[pc]? = some ⟨.loadConst, dest, index, 0, place⟩) :
    f.step call ⟨.loadConst, dest, index, 0, place⟩ e =
      .ok .next (f.putFunction dest { body := .script c } e) := by
  have hhas := (has_of_fits (hf.wellFormed.fits pc _ hi)).1 rfl
  refine step_of_perform rfl ?_
  show (f.constantValue index >>= f.write dest) e = _
  rw [constantValue, constant_eq hk, pure_bind]
  exact write_newFunction hf he hhas _

/-- Reading the registers that hold a row of values. -/
theorem range_apply (he : f.Sits e) {first behind : Int} (hfirst : 0 ≤ first) (hhas : f.Has first)
    (hbehind : f.Has behind) (hlength : behind = first + vs.length)
    (hrow : Row (f.contents e) first vs) : f.range first behind e = .ok vs.toArray e := by
  have h := Mirrors.range (k := pure) (m := (pure () : Script Unit))
    (Q := fun _ read T => read = vs.toArray ∧ T = f.contents e) hf hfirst hhas hbehind hlength hrow
    (.pure ⟨rfl, rfl⟩) e he
  obtain ⟨-, read, T, ⟨rfl, rfl⟩, h⟩ := h
  rwa [bind_pure, fill_contents] at h

theorem step_makeFunc (he : f.Sits e) (hdest : 0 ≤ dest)
    (hi : f.chunk.code[pc]? = some ⟨.makeFunc, dest, dest + 1, dest + 1 + vs.length, place⟩)
    (href : f.contents e dest = .function ref) (hbody : (e.heap.function ref).body = .script c)
    (hrow : Row (f.contents e) (dest + 1) vs) :
    f.step call ⟨.makeFunc, dest, dest + 1, dest + 1 + vs.length, place⟩ e = .ok .next
      (f.putFunction dest
        { body := .script c, scope := some e.globalScope, defaults := vs.toArray } e) := by
  obtain ⟨hasA, hasB, hasC⟩ := has_of_fits (hf.wellFormed.fits pc _ hi)
  have hhas : f.Has dest := hasA rfl
  have hrange := range_apply hf he (show 0 ≤ dest + 1 by omega) (hasB rfl) (hasC rfl) rfl hrow
  refine step_of_perform rfl ?_
  show f.makeFunction ⟨.makeFunc, dest, dest + 1, dest + 1 + vs.length, place⟩ e = _
  rw [makeFunction, Script.bind_apply, read_apply hf hhas he.live, href]
  dsimp only
  rw [Script.bind_apply, hrange]
  dsimp only
  rw [Script.get_bind_apply, hbody]
  exact write_newFunction hf he.live hhas _

theorem step_bindClosure (he : f.Live e)
    (hi : f.chunk.code[pc]? = some ⟨.bindClosure, dest, 0, 0, place⟩)
    (href : f.contents e dest = .function ref) :
    f.step call ⟨.bindClosure, dest, 0, 0, place⟩ e = .ok .next
      (f.putFunction dest { e.heap.function ref with scope := some f.activation } e) := by
  have hhas : f.Has dest := (has_of_fits (hf.wellFormed.fits pc _ hi)).1 rfl
  refine step_of_perform rfl ?_
  show f.bindClosure ⟨.bindClosure, dest, 0, 0, place⟩ e = _
  rw [bindClosure, Script.bind_apply, read_apply hf hhas he, href]
  exact write_newFunction hf he hhas _

/-- A frame goes through the instructions that make a function, and has it in the register. -/
theorem crosses_makes {l : FunctionLiteral} {close : Nat} (hcall : call.Calm f.temps)
    (he : f.Sits e) (hdest : 2 ≤ dest) (hlaid : l.LaidIn fuel dest start close f.chunk)
    (hlength : vs.length = l.params.length) (hrow : Row (f.contents e) (dest + 1) vs) :
    ∃ e₁ ref, f.Crosses call 3 close e (close + 3) e₁ ∧ f.contents e₁ dest = .function ref ∧
      e₁.heap.function ref = l.function f.activation vs := by
  obtain ⟨index, place, hk, hload, hmake, hbind⟩ := hlaid.makes
  rw [← hlength] at hmake
  have hhas : f.Has dest := (has_of_fits (hf.wellFormed.fits close _ hload)).1 rfl
  -- The code is loaded.
  have hstep₁ : f.step call _ e = _ := step_loadTemplate hf he.live hk hload
  set e₁ := f.putFunction dest { body := .script l.chunk } e
  have hsits₁ := sits_step hf hcall (hf.wellFormed.fits _ _ hload) he hstep₁
  -- The values of the defaults are taken.
  obtain ⟨-, hasB, hasC⟩ := has_of_fits (hf.wellFormed.fits (close + 1) _ hmake)
  have hrow₁ : Row (f.contents e₁) (dest + 1) vs := by
    refine hrow.congr fun r hr hlt => contents_putFunction_ne hf hhas ?_ (by omega) _
    exact ⟨(hasB rfl).1.trans hr, hlt.trans (hasC rfl).2⟩
  have hstep₂ : f.step call _ e₁ = _ := step_makeFunc hf hsits₁ (by omega) hmake
    (contents_putFunction_self hf he.live hhas _) (congrArg Function.body (function_putFunction _))
    hrow₁
  have hsits₂ := sits_step hf hcall (hf.wellFormed.fits _ _ hmake) hsits₁ hstep₂
  -- The function is bound to the activation.
  have hstep₃ : f.step call _ _ = _ := step_bindClosure hf hsits₂.live hbind
    (contents_putFunction_self hf hsits₁.live hhas _)
  rw [function_putFunction] at hstep₃
  refine ⟨_, _, ?_, contents_putFunction_self hf hsits₂.live hhas _, function_putFunction _⟩
  exact .step hload hstep₁ rfl (Nat.lt_succ_self _) <|
    .step hmake hstep₂ rfl (Nat.lt_succ_self _) <|
      .step hbind hstep₃ rfl (Nat.lt_succ_self _) (.stay _ _)

end Frame

end ScriptEngine
