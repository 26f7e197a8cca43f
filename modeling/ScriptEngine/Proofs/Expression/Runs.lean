import ScriptEngine.Proofs.Expression.Temporaries

/-!
# Runs of code for expressions

`x.Runs T pc m pc' Q` compares code with a computation: started at the index `pc` with the
temporaries `T`, the frame does what `m` does and comes to the index `pc'`, where `Q` holds of the
result of `m` and the temporaries; if `m` fails, the frame fails in the same way. Runs compose as
computations do (`Runs.bind`), so the code of an expression is followed instruction by instruction
next to its evaluation.
-/

namespace ScriptEngine

variable {α β : Type}

/-- One turn of the machine. -/
theorem Frame.run_succ {f : Frame} {pc : Nat} {i : Instruction} (hi : f.chunk.code[pc]? = some i)
    (call : Invoke) (fuel : Nat) (e : Engine) :
    f.run call (fuel + 1) pc e = match Script.tracing i.position (f.step call i) e with
      | .ok .next e' => f.run call fuel (pc + 1) e'
      | .ok (.jump target) e' => f.run call fuel target e'
      | .ok (.leave v) e' => .ok v e'
      | .error x e' => .error x e' := by
  simp only [run, hi, Script.bind_apply]
  rcases Script.tracing i.position (f.step call i) e with ⟨_ | _ | _, e'⟩ | ⟨x, e'⟩ <;> rfl

/-- The instructions that say where a frame goes on. -/
def Op.moves : Op → Bool
  | .jump | .jumpFalse | .jumpTrue | .ret | .retVoid => true
  | _ => false

theorem Frame.step_eq_perform {f : Frame} {i : Instruction} (h : i.op.moves = false)
    (call : Invoke) : f.step call i = (do f.perform call i; return .next) := by
  obtain ⟨op, a, b, c, place⟩ := i
  cases op <;> first | rfl | cases h

namespace Context

/-- A context whose frame runs compiled code, and whose locals are below register 0. -/
structure Proper (x : Context) : Prop where
  frame : x.frame.Proper none
  call : x.call.Calm x.frame.temps
  locals : ∀ s r, x.names.slot? s = some r → r < 0

/-- The frame goes from one index of its code to another. -/
def Goes (x : Context) (T : Int → Value) (pc : Nat) (e : Engine) (T' : Int → Value) (pc' : Nat)
    (e' : Engine) : Prop :=
  ∃ n, ∀ fuel, x.frame.run x.call (fuel + n) pc (x.frame.fill T e) =
    x.frame.run x.call fuel pc' (x.frame.fill T' e')

/-- The frame fails. -/
def Fails (x : Context) (T : Int → Value) (pc : Nat) (e : Engine) (failure : Failure)
    (e' : Engine) : Prop :=
  ∃ n T', ∀ fuel, x.frame.run x.call (fuel + n) pc (x.frame.fill T e) =
    .error failure (x.frame.fill T' e')

/-- Code does what a computation does; see the head of the module. -/
def Runs (x : Context) (T : Int → Value) (pc : Nat) (m : Script α) (pc' : Nat)
    (Q : α → (Int → Value) → Prop) : Prop :=
  ∀ e, x.frame.Sits e →
    match m e with
    | .ok a e' => x.frame.Sits e' ∧ ∃ T', Q a T' ∧ x.Goes T pc e T' pc' e'
    | .error failure e' => x.Fails T pc e failure e'

variable {x : Context} {T T₁ : Int → Value} {pc pc₁ pc' : Nat} {e e₁ e' : Engine}

theorem Goes.trans {T₂ : Int → Value} {pc₂ : Nat} {e₂ : Engine} (h : x.Goes T pc e T₁ pc₁ e₁)
    (h' : x.Goes T₁ pc₁ e₁ T₂ pc₂ e₂) : x.Goes T pc e T₂ pc₂ e₂ := by
  obtain ⟨n, hn⟩ := h
  obtain ⟨n', hn'⟩ := h'
  refine ⟨n' + n, fun fuel => ?_⟩
  rw [← Nat.add_assoc, hn, hn']

theorem Goes.fails {failure : Failure} (h : x.Goes T pc e T₁ pc₁ e₁)
    (h' : x.Fails T₁ pc₁ e₁ failure e') : x.Fails T pc e failure e' := by
  obtain ⟨n, hn⟩ := h
  obtain ⟨n', T', hn'⟩ := h'
  refine ⟨n' + n, T', fun fuel => ?_⟩
  rw [← Nat.add_assoc, hn, hn']

namespace Runs

variable {m : Script α} {Q Q' : α → (Int → Value) → Prop} {R : β → (Int → Value) → Prop}

theorem pure {a : α} (h : Q a T) : x.Runs T pc (pure a) pc Q :=
  fun _ he => ⟨he, T, h, 0, fun _ => rfl⟩

theorem bind {k : α → Script β} (hm : x.Runs T pc m pc₁ Q)
    (hk : ∀ a T₁, Q a T₁ → x.Runs T₁ pc₁ (k a) pc' R) : x.Runs T pc (m >>= k) pc' R := by
  intro e he
  have hme := hm e he
  rw [Script.bind_apply]
  rcases h : m e with ⟨a, e₁⟩ | ⟨failure, e₁⟩ <;> rw [h] at hme
  · obtain ⟨hsits, T₁, hQ, hgoes⟩ := hme
    have hke := hk a T₁ hQ e₁ hsits
    dsimp only
    rcases h' : k a e₁ with ⟨b, e₂⟩ | ⟨failure, e₂⟩ <;> rw [h'] at hke
    · obtain ⟨hsits₂, T₂, hR, hgoes₂⟩ := hke
      exact ⟨hsits₂, T₂, hR, hgoes.trans hgoes₂⟩
    · exact hgoes.fails hke
  · exact hme

theorem congr {m' : Script α} (h : ∀ e, x.frame.Sits e → m e = m' e)
    (hm : x.Runs T pc m' pc' Q) : x.Runs T pc m pc' Q := by
  intro e he
  rw [h e he]
  exact hm e he

/-- Code behind a computation that does not matter to it. -/
theorem followed (hm : x.Runs T pc m pc₁ Q)
    (h : ∀ a T₁, Q a T₁ → x.Runs T₁ pc₁ (Pure.pure a : Script α) pc' Q') : x.Runs T pc m pc' Q' := by
  have hbind := hm.bind h
  rwa [bind_pure] at hbind

theorem imp (hm : x.Runs T pc m pc' Q) (h : ∀ a T', Q a T' → Q' a T') : x.Runs T pc m pc' Q' :=
  hm.followed fun a T' hQ => pure (h a T' hQ)

/-- Code in front of a computation that does not matter to it. -/
theorem led (h : ∀ e, x.frame.Sits e → x.Goes T pc e T₁ pc₁ e) (hm : x.Runs T₁ pc₁ m pc' Q) :
    x.Runs T pc m pc' Q := by
  intro e he
  have hme := hm e he
  rcases hm : m e with ⟨a, e'⟩ | ⟨failure, e'⟩ <;> rw [hm] at hme
  · obtain ⟨hsits, T', hQ, hgoes⟩ := hme
    exact ⟨hsits, T', hQ, (h e he).trans hgoes⟩
  · exact (h e he).fails hme

/-- An instruction in front of a computation whose value is known. -/
theorem silent {b : β} (h : x.Runs T pc (Pure.pure b : Script β) pc₁ R)
    (hm : ∀ T₁, R b T₁ → x.Runs T₁ pc₁ m pc' Q) : x.Runs T pc m pc' Q := by
  intro e he
  obtain ⟨-, T₁, hR, hgoes⟩ := h e he
  have hme := hm T₁ hR e he
  rcases hm : m e with ⟨a, e'⟩ | ⟨failure, e'⟩ <;> rw [hm] at hme
  · obtain ⟨hsits, T', hQ, hgoes'⟩ := hme
    exact ⟨hsits, T', hQ, hgoes.trans hgoes'⟩
  · exact hgoes.fails hme

/-- One instruction that does not jump. -/
theorem perform {i : Instruction} (hx : x.Proper) (hi : x.frame.chunk.code[pc]? = some i)
    (hop : i.op.moves = false)
    (h : x.frame.chunk.Fits pc i →
      x.frame.Mirrors T (x.frame.perform x.call i) m fun a _ T' => Q a T') :
    x.Runs T pc (Script.tracing i.position m) (pc + 1) Q := by
  intro e he
  have hme := (h (hx.frame.wellFormed.fits pc i hi)).tracing i.position e he
  -- The result of the step says no more than that the next instruction follows.
  have hnext : ∀ e, Script.tracing i.position (x.frame.step x.call i) e =
      (Script.tracing i.position (x.frame.perform x.call i) >>= fun _ => Pure.pure .next) e := by
    intro e
    simp only [Frame.step_eq_perform hop, Script.tracing, Script.bind_apply]
    rcases x.frame.perform x.call i e with ⟨_, e'⟩ | ⟨_ | _, e'⟩ <;> rfl
  rcases hm : Script.tracing i.position m e with ⟨a, e'⟩ | ⟨failure, e'⟩ <;> rw [hm] at hme
  · obtain ⟨hsits, _, T', hQ, hperform⟩ := hme
    refine ⟨hsits, T', hQ, 1, fun fuel => ?_⟩
    rw [Frame.run_succ hi, hnext, Script.bind_apply, hperform]
    rfl
  · obtain ⟨T', hperform⟩ := hme
    refine ⟨1, T', fun fuel => ?_⟩
    rw [Frame.run_succ hi, hnext, Script.bind_apply, hperform]

end Runs

/-! ## Jumps -/

theorem goes_jump {target : Nat} {b c : Int} {place : Position}
    (hi : x.frame.chunk.code[pc]? = some ⟨.jump, target, b, c, place⟩) :
    x.Goes T pc e T target e := by
  refine ⟨1, fun fuel => ?_⟩
  rw [Frame.run_succ hi]
  simp only [Script.tracing, Frame.step, Frame.jumpTo, Int.natCast_nonneg, if_true, Int.toNat_natCast]
  rfl

/-- A jump on the truth of a register. -/
theorem goes_jumpIf {op : Op} {wanted : Bool} {d : Int} {target : Nat} {c : Int} {place : Position}
    (hx : x.Proper) (hop : op = .jumpFalse ∧ wanted = false ∨ op = .jumpTrue ∧ wanted = true)
    (hi : x.frame.chunk.code[pc]? = some ⟨op, d, target, c, place⟩) (hd : 0 ≤ d)
    (he : x.frame.Sits e) :
    x.Goes T pc e T (if (T d).truthy = wanted then target else pc + 1) e := by
  have hhas : x.frame.Has d := by
    refine (Frame.has_of_fits (hx.frame.wellFormed.fits pc _ hi)).1 ?_
    rcases hop with ⟨rfl, -⟩ | ⟨rfl, -⟩ <;> rfl
  have hread := Frame.read_fill (T := T) hx.frame hd hhas he.live
  have hstep : x.frame.step x.call ⟨op, d, target, c, place⟩ =
      x.frame.jumpIf ⟨op, d, target, c, place⟩ wanted := by
    rcases hop with ⟨rfl, rfl⟩ | ⟨rfl, rfl⟩ <;> rfl
  refine ⟨1, fun fuel => ?_⟩
  rw [Frame.run_succ hi, hstep]
  simp only [Script.tracing, Frame.jumpIf, Script.bind_apply, hread, Frame.jumpTo,
    Int.natCast_nonneg, if_true, Int.toNat_natCast]
  by_cases htruth : (T d).truthy = wanted
  · simp only [if_pos htruth]
    rfl
  · simp only [if_neg htruth]
    rfl

end Context

end ScriptEngine
