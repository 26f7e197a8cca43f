import ScriptEngine.Proofs.Expression.Meaning
import ScriptEngine.Proofs.Tame.Machine

/-!
# Temporaries

The registers of a frame from 0 on hold intermediate values. No name stands for one of them, so
they matter to the frame alone, and an engine can be described by what it is without them and by
their contents: `f.fill T e` is the engine `e` with the contents `T`.

`Mirrors` compares a computation of the machine with one that does not know of temporaries: both
end in the same way, with engines that are the same up to temporaries.
-/

namespace ScriptEngine

namespace Frame

/-- The registers from 0 on. -/
def temps (f : Frame) : Option Region :=
  some ⟨f.window, f.base, true⟩

/-- The engine with other contents of the temporaries. -/
def fill (f : Frame) (T : Int → Value) (e : Engine) : Engine :=
  e.graft f.temps fun i => T ((i : Int) - f.base)

/-- An engine on which a frame can run, and where no name stands for one of its temporaries. -/
structure Sits (f : Frame) (e : Engine) : Prop where
  guarded : e.heap.Guarded f.temps
  live : f.Live e

variable {f : Frame} {T : Int → Value} {r : Int} {v : Value} {e : Engine}

theorem base_le_cell (hr : 0 ≤ r) : f.base ≤ (f.cell r).index := by
  show f.base ≤ ((f.base : Int) + r).toNat
  omega

theorem cell_sub_base (hr : 0 ≤ r) : ((f.cell r).index : Int) - f.base = r := by
  show ((((f.base : Int) + r).toNat : Nat) : Int) - f.base = r
  omega

/-- The contents of the temporaries of an engine. -/
def contents (f : Frame) (e : Engine) (r : Int) : Value :=
  (e.heap.cell? (f.cell r)).getD .void

theorem window_fill (w : WindowRef) : (f.fill T e).heap.window w =
    if f.window = w then
      (Region.mk f.window f.base true).overwrite (fun i => T ((i : Int) - f.base)) (e.heap.window w)
    else e.heap.window w := by
  have h := @Heap.window_graft f.temps e.heap (fun i => T ((i : Int) - f.base)) w
  simp only [temps, true_and] at h
  exact h

theorem live_fill (h : f.Live e) : f.Live (f.fill T e) :=
  ⟨(Heap.size_window_graft _).trans h.size, h.activation⟩

/-- Filling the temporaries with what they hold. -/
theorem fill_contents : f.fill (f.contents e) e = e := by
  suffices h : e.heap.graft f.temps (fun i => f.contents e ((i : Int) - f.base)) = e.heap by
    unfold fill Engine.graft
    rw [h]
  suffices h : e.heap.windows.modify f.window.index ((Region.mk f.window f.base true).overwrite
      fun i => f.contents e ((i : Int) - f.base)) = e.heap.windows by
    simp only [Heap.graft, temps, if_true]
    rw [h]
  refine Array.ext_getElem? fun n => ?_
  rw [Array.getElem?_modify]
  split
  · rename_i hn
    subst hn
    rcases hw : e.heap.windows[f.window.index]? with _ | w
    · rfl
    · rw [Option.map_some, Option.some.injEq]
      refine Array.ext_getElem? fun i => ?_
      rw [Region.getElem?_overwrite]
      rcases hi : w[i]? with _ | v
      · rfl
      · have hcell : f.contents e ((i : Int) - f.base) = v := by
          have hindex : ((f.base : Int) + ((i : Int) - f.base)).toNat = i := by omega
          simp only [contents, cell, hindex, Heap.cell?, Heap.window, Array.getD_eq_getD_getElem?,
            hw, Option.getD_some, hi]
        simp only [Option.map_some, hcell, ite_self]
  · rfl

/-! ## Reading and writing temporaries -/

variable (hf : f.Proper none)

include hf

theorem cell?_fill (hr : 0 ≤ r) (hhas : f.Has r) (he : f.Live e) :
    (f.fill T e).heap.cell? (f.cell r) = some (T r) := by
  obtain ⟨old, hold⟩ := Heap.cell?_isSome (hf.inside hhas he)
  unfold Heap.cell? at hold ⊢
  rw [window_fill, if_pos (show f.window = (f.cell r).window from rfl), Region.getElem?_overwrite,
    hold, Option.map_some, if_pos (base_le_cell hr), cell_sub_base hr]

theorem setCell_fill (hr : 0 ≤ r) (hhas : f.Has r) (he : f.Live e) (v : Value) :
    (f.fill T e).heap.setCell (f.cell r) v = (f.fill (Function.update T r v) e).heap := by
  have hinside := hf.inside hhas he
  simp only [fill, Engine.graft, Heap.graft, temps, if_true, Heap.setCell]
  congr 1
  refine Array.ext_getElem? fun n => ?_
  simp only [Array.getElem?_modify, show (f.cell r).window = f.window from rfl]
  split
  · rename_i hn
    subst hn
    rcases hw : e.heap.windows[f.window.index]? with _ | w
    · rfl
    · have hsize : (f.cell r).index < w.size := by
        simpa [Heap.window, Array.getD_eq_getD_getElem?, hw, cell] using hinside
      simp only [Option.map_some, Option.some.injEq]
      refine Array.ext_getElem? fun i => ?_
      simp only [Array.getElem?_setIfInBounds, Region.getElem?_overwrite, Region.size_overwrite]
      by_cases hi : (f.cell r).index = i
      · subst hi
        rw [if_pos rfl, if_pos hsize, Array.getElem?_eq_getElem hsize, Option.map_some,
          if_pos (base_le_cell hr), cell_sub_base hr, Function.update_self]
      · rw [if_neg hi]
        have hne : ∀ _ : f.base ≤ i, (i : Int) - f.base ≠ r := by
          rintro hle rfl
          exact hi (by show ((f.base : Int) + ((i : Int) - f.base)).toNat = i; omega)
        congr 1
        funext old
        split
        · rw [Function.update_of_ne (hne ‹_›)]
        · rfl
  · rfl

/-- Reading a register of a live frame. -/
theorem read_apply (hhas : f.Has r) (he : f.Live e) : f.read r e = .ok (f.contents e r) e := by
  obtain ⟨v, hv⟩ := Heap.cell?_isSome (hf.inside hhas he)
  rw [contents, hv, Option.getD_some]
  exact read_of_cell? (hf.index hhas).1 hv

theorem read_fill (hr : 0 ≤ r) (hhas : f.Has r) (he : f.Live e) :
    f.read r (f.fill T e) = .ok (T r) (f.fill T e) := by
  rw [read_apply hf hhas (live_fill he), contents, cell?_fill hf hr hhas he, Option.getD_some]

theorem write_fill (hr : 0 ≤ r) (hhas : f.Has r) (he : f.Live e) (v : Value) :
    f.write r v (f.fill T e) = .ok () (f.fill (Function.update T r v) e) := by
  have hsize := hf.inside hhas (live_fill (T := T) he)
  have hindex := (hf.index hhas).1
  have hset := setCell_fill (T := T) hf hr hhas he v
  unfold cell at hsize hset
  have hslot : f.slot r (f.fill T e) = .ok ((f.base : Int) + r).toNat (f.fill T e) := by
    simp only [slot]
    show (if _ ∧ ((f.base : Int) + r) < ((f.fill T e).heap.window f.window).size then
      (pure _ : Script Nat) else Script.raise (.registerOutside r)) (f.fill T e) = _
    rw [if_pos ⟨hindex, by simp only at hsize; omega⟩]
    rfl
  rw [write, Script.bind_apply, hslot]
  exact congrArg (fun h => EStateM.Result.ok () { f.fill T e with heap := h }) hset

end Frame

/-! ## Locals -/

namespace Frame

variable {f : Frame} {r : Int} {call : Invoke} (hf : f.Proper none) (hr : r < 0) (hhas : f.Has r)

include hf hr hhas

/-- A local is no temporary. -/
theorem free_local : (f.cell r).Free f.temps := by
  rintro _ ⟨⟩ - -
  have hindex := (hf.index hhas).1
  show ((f.base : Int) + r).toNat < f.base
  omega

theorem Steady.readLocal : f.Steady f.temps (f.read r) :=
  (tame_read_free hf (free_local hf hr hhas) hhas fun _ h => h).consequence (fun _ h => h)
    fun _ _ h => h.2

theorem Steady.writeLocal (v : Value) : f.Steady f.temps (f.write r v) :=
  (tame_write_free hf (free_local hf hr hhas) hhas v).consequence (fun _ h => h) fun _ _ h => h.2

theorem Steady.assign (hcall : call.Calm f.temps) (v : Value) :
    f.Steady f.temps (f.assign call r v) := by
  refine (readLocal hf hr hhas).bind fun old => ?_
  split
  · exact .ofHeap (fun _ _ _ => rfl) fun h hg => .ofCalm (Script.calm_write hcall (hg.property _) v)
  · exact writeLocal hf hr hhas v

end Frame

/-! ## Mirrors -/

/-- How two computations compare on an engine that differs by its temporaries; see the head of the
module. The contents of the temporaries at the end are part of what `Q` is about. -/
def Frame.Mirrors {α β : Type} (f : Frame) (T : Int → Value) (c : Script β) (m : Script α)
    (Q : α → β → (Int → Value) → Prop) : Prop :=
  ∀ e, f.Sits e →
    match m e with
    | .ok a e' => f.Sits e' ∧ ∃ b T', Q a b T' ∧ c (f.fill T e) = .ok b (f.fill T' e')
    | .error x e' => ∃ T', c (f.fill T e) = .error x (f.fill T' e')

/-- Registers from one on hold values. -/
def Row (T : Int → Value) (first : Int) : List Value → Prop
  | [] => True
  | v :: vs => T first = v ∧ Row T (first + 1) vs

namespace Frame.Mirrors

variable {α β γ δ : Type} {f : Frame} {T : Int → Value} {c : Script β} {m : Script α} {r : Int}
  {Q R : α → β → (Int → Value) → Prop}

theorem pure {a : α} {b : β} (h : Q a b T) : f.Mirrors T (pure b : Script β) (pure a) Q :=
  fun _ he => ⟨he, b, T, h, rfl⟩

theorem raise {cause : RuntimeFault} :
    f.Mirrors T (Script.raise cause : Script β) (Script.raise cause : Script α) Q :=
  fun _ _ => ⟨T, rfl⟩

theorem imp (h : f.Mirrors T c m Q) (hQ : ∀ a b T', Q a b T' → R a b T') : f.Mirrors T c m R := by
  intro e he
  have hme := h e he
  rcases hm : m e with ⟨a, e'⟩ | ⟨x, e'⟩ <;> rw [hm] at hme
  · obtain ⟨hsits, b, T', hb, hc⟩ := hme
    exact ⟨hsits, b, T', hQ a b T' hb, hc⟩
  · exact hme

theorem tracing (h : f.Mirrors T c m Q) (place : Position) :
    f.Mirrors T (Script.tracing place c) (Script.tracing place m) Q := by
  intro e he
  have hme := h e he
  simp only [Script.tracing]
  rcases hm : m e with ⟨a, e'⟩ | ⟨_ | _, e'⟩ <;> rw [hm] at hme
  · obtain ⟨hsits, b, T', hb, hc⟩ := hme
    exact ⟨hsits, b, T', hb, by rw [hc]⟩
  · obtain ⟨T', hc⟩ := hme
    exact ⟨T', by rw [hc]⟩
  · obtain ⟨T', hc⟩ := hme
    exact ⟨T', by rw [hc]⟩

/-- A computation that leaves temporaries alone, on both sides. -/
theorem both {n : Script γ} {k : γ → Script β} {l : γ → Script α} (hn : f.Steady f.temps n)
    (h : ∀ a, f.Mirrors T (k a) (l a) Q) : f.Mirrors T (n >>= k) (n >>= l) Q := by
  intro e he
  obtain ⟨hallow, hgraft⟩ := hn e he.guarded he.live
  have hfill : n (f.fill T e) = Outcome.onEngine (f.fill T) (n e) := hgraft _
  simp only [Script.bind_apply, hfill]
  rcases hne : n e with ⟨a, e₁⟩ | ⟨x, e₁⟩ <;> rw [hne] at hallow
  · exact h a e₁ ⟨hallow.guarded, hallow.result a e₁ rfl⟩
  · exact ⟨T, rfl⟩

/-- A computation that leaves temporaries alone ends both sides. -/
theorem last {n : Script α} (hn : f.Steady f.temps n) :
    f.Mirrors T n n fun a b T' => b = a ∧ T' = T := by
  have h : f.Mirrors T (n >>= Pure.pure) (n >>= Pure.pure) fun a b T' => b = a ∧ T' = T :=
    both hn fun a => pure ⟨rfl, rfl⟩
  rwa [bind_pure] at h

variable (hf : f.Proper none)

include hf

theorem read {k : Value → Script β} (hr : 0 ≤ r) (hhas : f.Has r) (h : f.Mirrors T (k (T r)) m Q) :
    f.Mirrors T (f.read r >>= k) m Q := by
  intro e he
  have hread := Frame.read_fill (T := T) hf hr hhas he.live
  have hme := h e he
  rw [Script.bind_apply, hread]
  exact hme

theorem write {k : Unit → Script β} {v : Value} (hr : 0 ≤ r) (hhas : f.Has r)
    (h : f.Mirrors (Function.update T r v) (k ()) m Q) : f.Mirrors T (f.write r v >>= k) m Q := by
  intro e he
  have hwrite := Frame.write_fill (T := T) hf hr hhas he.live v
  have hme := h e he
  rw [Script.bind_apply, hwrite]
  exact hme

/-- A write that ends a computation, whose result is what was written. -/
theorem put {v : Value} (hr : 0 ≤ r) (hhas : f.Has r) :
    f.Mirrors T (f.write r v) (Pure.pure v : Script Value) fun v _ T' =>
      T' = Function.update T r v :=
  fun _ he => ⟨he, (), _, rfl, Frame.write_fill hf hr hhas he.live v⟩

theorem rangeFrom {k : Array Value → Script β} {vs : List Value} {first : Int} (before : Array Value)
    (hfirst : 0 ≤ first) (hhas : ∀ r, first ≤ r → r < first + vs.length → f.Has r)
    (hvs : Row T first vs) (h : f.Mirrors T (k (before ++ vs.toArray)) m Q) :
    f.Mirrors T (f.rangeFrom before first vs.length >>= k) m Q := by
  induction vs generalizing before first with
  | nil => simpa [Frame.rangeFrom] using h
  | cons v vs ih =>
    obtain ⟨hv, hvs⟩ := hvs
    simp only [List.length_cons, Frame.rangeFrom, bind_assoc] at hhas ⊢
    refine read hf hfirst (hhas first (le_refl _) (by omega)) ?_
    rw [hv]
    refine ih (before.push v) (by omega) (fun r hr hr' => hhas r (by omega) (by omega)) hvs ?_
    simpa using h

/-- Reading the registers that hold a row of values. -/
theorem range {k : Array Value → Script β} {vs : List Value} {first behind : Int}
    (hfirst : 0 ≤ first) (hhas : f.Has first) (hbehind : f.Has behind)
    (hlen : behind = first + vs.length) (hvs : Row T first vs)
    (h : f.Mirrors T (k vs.toArray) m Q) : f.Mirrors T (f.range first behind >>= k) m Q := by
  rw [Frame.range, show (behind - first).toNat = vs.length by omega]
  refine rangeFrom hf #[] hfirst (fun r hr hr' => ?_) hvs (by simpa using h)
  exact ⟨hhas.1.trans hr, lt_trans (by omega) hbehind.2⟩

end Frame.Mirrors

end ScriptEngine
