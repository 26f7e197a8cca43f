import ScriptEngine.Proofs.Assignment.Target
import ScriptEngine.Proofs.Expression.Simulation
import ScriptEngine.Proofs.Registers.Kept

/-!
# Running stretches of code

The code of an operand is a stretch of the code of its function: control enters it at its start and
leaves it at its end, and it writes no temporaries below its destination (`Chunk.Encloses`). So a
frame that comes to its start goes to its end, doing what the stretch does alone, and keeps what
waits below (`Exact.pass`).

`x.Exact P pc m pc' Q` compares code with a computation whose engine is that of the frame, with the
temporaries: from the index `pc` the frame does what `m` does and comes to `pc'`, if `P` holds of
the temporaries before; `Q` holds of the result and the temporaries after. `x.Ends P pc m pc' Q` is
the same for the last part of some code, where the temporaries are no longer those of `m`.
-/

namespace ScriptEngine

/-! ## Filled temporaries -/

namespace Frame

variable {f : Frame} {T T' : Int → Value} {q r : Int} {e : Engine}

/-- Only the registers from 0 on are filled. -/
theorem fill_congr (h : ∀ q, 0 ≤ q → T' q = T q) : f.fill T' e = f.fill T e := by
  have hwindow : (Region.mk f.window f.base true).overwrite (fun i => T' ((i : Int) - f.base)) =
      (Region.mk f.window f.base true).overwrite fun i => T ((i : Int) - f.base) := by
    funext w
    refine Array.ext_getElem? fun i => ?_
    simp only [Region.getElem?_overwrite]
    congr 1
    funext old
    split
    · exact h _ (by rename_i hle; change f.base ≤ i at hle; omega)
    · rfl
  simp only [fill, Engine.graft, Heap.graft, temps, if_true, hwindow]

variable (hf : f.Proper none) (hhas : f.Has r)

include hf hhas

/-- What a write to a temporary leaves. -/
theorem Sits.write (he : f.Sits e) (hr : 0 ≤ r) (v : Value) :
    ∃ e', f.write r v e = .ok () e' ∧ f.Sits e' ∧ e' = f.fill (Function.update (f.contents e) r v) e ∧
      f.contents e' r = v ∧ ∀ q, 0 ≤ q → q ≠ r → f.contents e' q = f.contents e q := by
  have hwrite := write_fill (T := f.contents e) hf hr hhas he.live v
  rw [fill_contents] at hwrite
  have hother : ∀ q, 0 ≤ q → q ≠ r → f.Sits _ ∧ f.contents _ q = f.contents e q := fun q hq hne =>
    Spares.write hf hq hhas hne v e he () _ hwrite
  refine ⟨_, hwrite, (hother (r + 1) (by omega) (by omega)).1, rfl, ?_, fun q hq hne => (hother q hq hne).2⟩
  rw [contents, cell?_fill hf hr hhas he.live, Function.update_self, Option.getD_some]

end Frame

/-! ## Code that does what a computation does -/

namespace Context

variable {α β : Type}

/-- Code does what a computation does, temporaries included; see the head of the module. -/
def Exact (x : Context) (P : (Int → Value) → Prop) (pc : Nat) (m : Script α) (pc' : Nat)
    (Q : α → (Int → Value) → Prop) : Prop :=
  ∀ e, x.frame.Sits e → P (x.frame.contents e) →
    match m e with
    | .ok a e' => x.frame.Sits e' ∧ Q a (x.frame.contents e') ∧
        x.Goes (x.frame.contents e) pc e (x.frame.contents e') pc' e'
    | .error failure e' => x.Fails (x.frame.contents e) pc e failure e'

/-- Code does what a computation does, apart from the temporaries that it leaves. -/
def Ends (x : Context) (P : (Int → Value) → Prop) (pc : Nat) (m : Script α) (pc' : Nat)
    (Q : α → (Int → Value) → Prop) : Prop :=
  ∀ e, x.frame.Sits e → P (x.frame.contents e) →
    match m e with
    | .ok a e' => x.frame.Sits e' ∧ ∃ T, Q a T ∧ x.Goes (x.frame.contents e) pc e T pc' e'
    | .error failure e' => x.Fails (x.frame.contents e) pc e failure e'

/-- The temporaries below a register are as in others of which something holds. -/
def Kept (d : Int) (P : (Int → Value) → Prop) (T' : Int → Value) : Prop :=
  ∃ T, P T ∧ ∀ q, 0 ≤ q → q < d → T' q = T q

namespace Kept

variable {P : (Int → Value) → Prop} {d dest : Int} {T T' : Int → Value}

theorem self (h : P T) : Kept d P T :=
  ⟨T, h, fun _ _ _ => rfl⟩

theorem trans (h : Kept d (Kept dest P) T) (hd : d ≤ dest) : Kept d P T := by
  obtain ⟨T₁, ⟨T₂, hP, hsame⟩, hsame'⟩ := h
  exact ⟨T₂, hP, fun q hq hlt => (hsame' q hq hlt).trans (hsame q hq (by omega))⟩

theorem below (h : Kept d P T) (hT : Below d T T') : Kept d P T' := by
  obtain ⟨T₁, hP, hsame⟩ := h
  exact ⟨T₁, hP, fun q hq hlt => (hT q hlt).trans (hsame q hq hlt)⟩

end Kept

/-- Computes a value and puts it into a register. -/
def keep (x : Context) (register : Int) (m : Script Value) : Script Value := do
  let v ← m
  x.frame.write register v
  return v

variable {x : Context} {P : (Int → Value) → Prop} {pc pc₁ pc' : Nat} {m : Script α}
  {Q Q' : α → (Int → Value) → Prop} {R : β → (Int → Value) → Prop}

theorem Ends.of_runs (h : ∀ T, P T → x.Runs T pc m pc' Q) : x.Ends P pc m pc' Q :=
  fun e he hP => h _ hP e he

namespace Exact

theorem pure {a : α} (h : ∀ T, P T → Q a T) : x.Exact P pc (pure a) pc Q :=
  fun _ he hP => ⟨he, h _ hP, 0, fun _ => rfl⟩

theorem bind {k : α → Script β} (hm : x.Exact P pc m pc₁ Q)
    (hk : ∀ a, x.Exact (Q a) pc₁ (k a) pc' R) : x.Exact P pc (m >>= k) pc' R := by
  intro e he hP
  have hme := hm e he hP
  rw [Script.bind_apply]
  rcases h : m e with ⟨a, e₁⟩ | ⟨failure, e₁⟩ <;> rw [h] at hme
  · obtain ⟨hsits, hQ, hgoes⟩ := hme
    have hke := hk a e₁ hsits hQ
    dsimp only
    rcases h' : k a e₁ with ⟨b, e₂⟩ | ⟨failure, e₂⟩ <;> rw [h'] at hke
    · obtain ⟨hsits₂, hR, hgoes₂⟩ := hke
      exact ⟨hsits₂, hR, hgoes.trans hgoes₂⟩
    · exact hgoes.fails hke
  · exact hme

theorem imp (hm : x.Exact P pc m pc' Q) (h : ∀ a T, Q a T → Q' a T) : x.Exact P pc m pc' Q' := by
  have hbind := hm.bind fun a => pure (a := a) (Q := Q') (h a)
  rwa [bind_pure] at hbind

/-- The last part of some code. -/
theorem ends {k : α → Script β} (hm : x.Exact P pc m pc₁ Q)
    (hk : ∀ a, x.Ends (Q a) pc₁ (k a) pc' R) : x.Ends P pc (m >>= k) pc' R := by
  intro e he hP
  have hme := hm e he hP
  rw [Script.bind_apply]
  rcases h : m e with ⟨a, e₁⟩ | ⟨failure, e₁⟩ <;> rw [h] at hme
  · obtain ⟨hsits, hQ, hgoes⟩ := hme
    have hke := hk a e₁ hsits hQ
    dsimp only
    rcases h' : k a e₁ with ⟨b, e₂⟩ | ⟨failure, e₂⟩ <;> rw [h'] at hke
    · obtain ⟨hsits₂, T₂, hR, hgoes₂⟩ := hke
      exact ⟨hsits₂, T₂, hR, hgoes.trans hgoes₂⟩
    · exact hgoes.fails hke
  · exact hme

/-- The last part of some code, of which only the result matters. -/
theorem andThen {k : α → Script β} (hm : x.Exact P pc m pc₁ Q)
    (hk : ∀ a T, Q a T → x.Runs T pc₁ (k a) pc' R) : x.Ends P pc (m >>= k) pc' R :=
  hm.ends fun a => .of_runs (hk a)

/-- A computation that does not use the temporaries, whose result goes into one of them. -/
theorem written {m : Script Value} {r : Int} (hx : x.Proper) (hr : 0 ≤ r) (hhas : x.frame.Has r)
    (hspares : ∀ q, 0 ≤ q → x.frame.Spares q m)
    (hm : ∀ T, P T → x.Runs T pc m pc' fun v T' => T' = Function.update T r v) :
    x.Exact P pc (x.keep r m) pc' fun v T' => T' r = v ∧ Kept r P T' := by
  intro e he hP
  have hme := hm _ hP e he
  rw [keep, Script.bind_apply]
  rcases h : m e with ⟨v, e₁⟩ | ⟨failure, e₁⟩ <;> rw [h] at hme
  · obtain ⟨hsits, T₁, rfl, hgoes⟩ := hme
    obtain ⟨e₂, hwrite, hsits₂, heq, hself, hother⟩ := hsits.write hx.frame hhas hr v
    have hsame : ∀ q, 0 ≤ q → x.frame.contents e₁ q = x.frame.contents e q := fun q hq =>
      (hspares q hq e he v e₁ h).2
    dsimp only
    rw [Script.bind_apply, hwrite]
    refine ⟨hsits₂, ⟨hself, _, hP, fun q hq hlt => ?_⟩, ?_⟩
    · rw [hother q hq (by omega), hsame q hq]
    · obtain ⟨n, hn⟩ := hgoes
      refine ⟨n, fun fuel => (hn fuel).trans ?_⟩
      rw [Frame.fill_contents, heq]
      congr 1
      refine Frame.fill_congr fun q hq => ?_
      by_cases hqr : q = r
      · rw [hqr, Function.update_self, Function.update_self]
      · rw [Function.update_of_ne hqr, Function.update_of_ne hqr, hsame q hq]
  · exact hme

/-- A computation that leaves the temporaries alone. -/
theorem unwritten (hspares : ∀ q, 0 ≤ q → x.frame.Spares q m)
    (hm : ∀ T, P T → x.Runs T pc m pc' fun _ T' => T' = T) (d : Int) :
    x.Exact P pc m pc' fun _ => Kept d P := by
  intro e he hP
  have hme := hm _ hP e he
  rcases h : m e with ⟨a, e₁⟩ | ⟨failure, e₁⟩ <;> rw [h] at hme
  · obtain ⟨hsits, T₁, rfl, hgoes⟩ := hme
    have hsame : ∀ q, 0 ≤ q → x.frame.contents e₁ q = x.frame.contents e q := fun q hq =>
      (hspares q hq e he a e₁ h).2
    refine ⟨hsits, ⟨_, hP, fun q hq _ => hsame q hq⟩, ?_⟩
    obtain ⟨n, hn⟩ := hgoes
    exact ⟨n, fun fuel => (hn fuel).trans (by rw [Frame.fill_congr hsame])⟩
  · exact hme

end Exact

/-- An erased instruction in front of a computation. -/
theorem Ends.nop (hx : x.Proper) {y z w : Int} {place : Position}
    (hi : x.frame.chunk.code[pc]? = some ⟨.nop, y, z, w, place⟩) (hm : x.Ends P (pc + 1) m pc' Q) :
    x.Ends P pc m pc' Q := by
  have hnop : x.Exact P pc (Pure.pure ()) (pc + 1) fun _ => P := by
    intro e he hP
    obtain ⟨-, T, rfl, hgoes⟩ := x.runs_nop hx hi (T := x.frame.contents e) e he
    exact ⟨he, hP, hgoes⟩
  have hall := hnop.ends (k := fun _ => m) fun _ => hm
  rwa [pure_bind] at hall

end Context

/-! ## Stretches -/

/-- Code that control enters at its start and leaves at its end, and that writes no temporaries
below a register. -/
structure Chunk.Encloses (c : Chunk) (d : Int) (start stop : Nat) : Prop where
  le : start ≤ stop
  code : ∀ n, start ≤ n → n < stop →
    ∃ i, c.code[n]? = some i ∧ i.Stays n stop ∧ ∀ r ∈ i.written, d ≤ r ∨ r < 0

namespace Frame

variable {f : Frame} {call : Invoke} {d : Int} {start stop : Nat}

/-- One turn in a stretch. -/
theorem Sits.advance (hf : f.Proper none) (hcall : call.Calm f.temps) {pc m : Nat} {e e' : Engine}
    (he : f.Sits e) {i : Instruction} (hi : f.chunk.code[pc]? = some i)
    (hwrites : ∀ r ∈ i.written, d ≤ r ∨ r < 0) (h : f.advance call (.at pc e) = .at m e') :
    f.Sits e' ∧ f.KeepsBelow d e e' := by
  have hstep : ∃ flow, f.step call i e = .ok flow e' := by
    simp only [Frame.advance, hi, Script.tracing] at h
    rcases hstep : f.step call i e with ⟨flow, e₁⟩ | ⟨_ | _, e₁⟩ <;> rw [hstep] at h
    · cases flow <;> cases h <;> exact ⟨_, rfl⟩
    · cases h
    · cases h
  obtain ⟨flow, hstep⟩ := hstep
  have hfits := hf.wellFormed.fits pc i hi
  exact ⟨sits_step hf hcall hfits he hstep, fun r hr hd =>
    (spares_step hf hcall hfits hr (fun hmem => by have := hwrites r hmem; omega) e he flow e'
      hstep).2⟩

/-- A frame goes through a stretch as if its code ended there. -/
theorem through (hf : f.Proper none) (hcall : call.Calm f.temps) (h : f.chunk.Encloses d start stop)
    (fuel : Nat) {pc : Nat} (hstart : start ≤ pc) (hstop : pc ≤ stop) (hfuel : stop - pc < fuel)
    {e : Engine} (he : f.Sits e) :
    match (f.upTo stop).run call fuel pc e with
    | .ok _ e' => f.Sits e' ∧ f.KeepsBelow d e e' ∧
        ∃ n, ∀ more, f.run call (more + n) pc e = f.run call more stop e'
    | .error failure e' => ∃ n, ∀ more, f.run call (more + n) pc e = .error failure e' := by
  induction fuel generalizing pc e with
  | zero => omega
  | succ fuel ih =>
    rcases Nat.lt_or_eq_of_le hstop with hlt | rfl
    · obtain ⟨i, hi, hstays, hwrites⟩ := h.code pc hstart hlt
      have hcut : (f.upTo stop).run call (fuel + 1) pc e =
          (f.upTo stop).rest call fuel (f.advance call (.at pc e)) := by
        rw [← advance_upTo call hlt]
        exact rest_succ call _ fuel (.at pc e)
      have hwhole : ∀ more, f.run call (more + 1) pc e =
          f.rest call more (f.advance call (.at pc e)) := fun more =>
        rest_succ call f more (.at pc e)
      rcases advance_of_stays (e := e) hi hstays hlt with ⟨failure, e₁, hfail⟩ | ⟨m, e₁, hgo, hpc, hm⟩
      · rw [hcut, hfail]
        exact ⟨1, fun more => by rw [hwhole, hfail, rest]⟩
      · obtain ⟨hsits, hkept⟩ := he.advance hf hcall hi hwrites hgo
        have hrest := ih (hstart.trans hpc.le) hm (by omega) hsits
        rw [hcut, hgo, rest]
        rcases hend : (f.upTo stop).run call fuel m e₁ with ⟨v, e₂⟩ | ⟨failure, e₂⟩ <;>
          rw [hend] at hrest
        · obtain ⟨hsits₂, hkept₂, n, hn⟩ := hrest
          refine ⟨hsits₂, fun r hr hd => (hkept₂ r hr hd).trans (hkept r hr hd), n + 1, fun more => ?_⟩
          rw [← Nat.add_assoc, hwhole, hgo, rest, hn]
        · obtain ⟨n, hn⟩ := hrest
          exact ⟨n + 1, fun more => by rw [← Nat.add_assoc, hwhole, hgo, rest, hn]⟩
    · rw [run_upTo_stop]
      exact ⟨he, fun _ _ _ => rfl, 0, fun _ => rfl⟩

end Frame

namespace Context

variable {x : Context} {P : (Int → Value) → Prop} {d : Int} {start stop : Nat}

/-- A stretch is passed once, and what waits below its registers is kept. -/
theorem Exact.pass (hx : x.Proper) (h : x.frame.chunk.Encloses d start stop) :
    x.Exact P start (x.pass start stop) stop fun _ => Kept d P := by
  intro e he hP
  have hthrough := Frame.through hx.frame hx.call h (stop - start + 1) (le_refl start) h.le (by omega) he
  simp only [Context.pass, Script.bind_apply]
  rcases hrun : (x.frame.upTo stop).run x.call (stop - start + 1) start e with
    ⟨v, e'⟩ | ⟨failure, e'⟩ <;> rw [hrun] at hthrough
  · obtain ⟨hsits, hkept, n, hn⟩ := hthrough
    refine ⟨hsits, ⟨_, hP, hkept⟩, n, fun fuel => ?_⟩
    rw [Frame.fill_contents, Frame.fill_contents, hn]
  · obtain ⟨n, hn⟩ := hthrough
    refine ⟨n, x.frame.contents e', fun fuel => ?_⟩
    rw [Frame.fill_contents, Frame.fill_contents, hn]

/-- The code of an expression is a stretch with its value in a register. -/
theorem Exact.evaluate (hx : x.Proper) (h : x.frame.chunk.Encloses d start stop) (r : Int) :
    x.Exact P start (x.evaluate start stop r) stop fun v T => T r = v ∧ Kept d P T := by
  intro e he hP
  have hpass := Exact.pass (P := P) hx h e he hP
  simp only [Context.evaluate, Script.bind_apply]
  rcases hrun : x.pass start stop e with ⟨⟨⟩, e'⟩ | ⟨failure, e'⟩ <;> rw [hrun] at hpass
  · exact ⟨hpass.1, ⟨rfl, hpass.2.1⟩, hpass.2.2⟩
  · exact hpass

end Context

end ScriptEngine
