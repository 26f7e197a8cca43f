import ScriptEngine.Machine
import ScriptEngine.Proofs.Tame.Native

/-!
# Instructions are tame

A frame of compiled code never leaves its window: the registers, constants and names that its
instructions refer to are there (`Frame.Proper`, `Frame.Live`). An instruction that takes a
function finds one in its register, because the instruction before it left one there.
-/

namespace ScriptEngine

namespace Frame

/-- The cell of a register. -/
def cell (f : Frame) (r : Int) : Cell :=
  ⟨f.window, ((f.base : Int) + r).toNat⟩

/-- A register that is in the window is read. -/
theorem read_of_cell? {f : Frame} {r : Int} {v : Value} {e : Engine} (hr : 0 ≤ (f.base : Int) + r)
    (hv : e.heap.cell? (f.cell r) = some v) : f.read r e = .ok v e := by
  unfold cell at hv
  rw [read, if_neg (by omega), Script.getHeap_bind_apply, hv]
  rfl

/-- A register that the chunk of a frame uses. -/
def Has (f : Frame) (r : Int) : Prop :=
  f.chunk.localFloor ≤ r ∧ r < f.chunk.tempCount

/-- A frame of compiled code that does not use a region which is shut, and gives no names to
registers of one that is not. -/
structure Proper (ρ : Option Region) (f : Frame) : Prop where
  compiled : f.chunk.Compiled
  base : f.base = f.chunk.base
  apart : ∀ r ∈ ρ, f.window = r.window → r.shut = false ∧ f.base ≤ r.first

/-- The window and the activation of a frame are in the heap. -/
structure Live (f : Frame) (e : Engine) : Prop where
  size : (e.heap.window f.window).size = f.chunk.windowSize
  activation : (e.heap.scope f.activation).shape.2 = some f.window

/-- A register holds a function. -/
def Holds (f : Frame) (r : Int) (e : Engine) : Prop :=
  ∃ g, e.heap.cell? (f.cell r) = some (.function g)

/-- A computation that is tame on a live frame and leaves it live. -/
def Steady {α : Type} (ρ : Option Region) (f : Frame) (m : Script α) : Prop :=
  Script.Tame ρ f.Live m fun _ => f.Live

variable {ρ : Option Region} {call : Invoke} {f : Frame} {r : Int} {P : Engine → Prop}

theorem lasting_live (f : Frame) : Script.Lasting f.Live := by
  intro e e' hx hlive
  have hpos : f.window.index < e.heap.windows.size := by
    refine Heap.lt_of_cell (c := ⟨f.window, 0⟩) ?_
    show 0 < (e.heap.window f.window).size
    rw [hlive.size]
    exact Nat.lt_of_lt_of_le (Nat.succ_pos _) (Nat.le_max_right _ _)
  exact ⟨(hx.sizes _ hpos).trans hlive.size, hx.activation hlive.activation⟩

theorem Proper.wellFormed (hf : f.Proper ρ) : f.chunk.WellFormed :=
  hf.compiled.wellFormed

theorem Proper.free (hf : f.Proper ρ) (n : Nat) : (⟨f.window, n⟩ : Cell).Free ρ := by
  intro r hr hshut hw
  rw [(hf.apart r hr hw).1] at hshut
  cases hshut

/-- A register that a chunk uses is inside the window. -/
theorem Proper.index (hf : f.Proper ρ) (hr : f.Has r) :
    0 ≤ (f.base : Int) + r ∧ ((f.base : Int) + r).toNat < f.chunk.windowSize := by
  have hfloor := hf.wellFormed.floor
  have hbase : (f.base : Int) = -f.chunk.localFloor := by
    rw [hf.base, Chunk.base]
    omega
  have hsize : ((f.base : Int) + r).toNat < f.chunk.frameSize := by
    rw [Chunk.frameSize]
    have := hr.1
    have := hr.2
    omega
  have := hr.1
  exact ⟨by omega, hsize.trans_le (Nat.le_max_left _ _)⟩

theorem Proper.inside (hf : f.Proper ρ) (hr : f.Has r) {e : Engine} (hlive : f.Live e) :
    (f.cell r).index < (e.heap.window (f.cell r).window).size := by
  rw [show (f.cell r).window = f.window from rfl, hlive.size]
  exact (hf.index hr).2

/-! ## Registers -/

/-- Reading a register that may be used changes nothing. -/
theorem tame_read_free {σ : Option Region} (hf : f.Proper σ) (hfree : (f.cell r).Free ρ)
    (hr : f.Has r) (hP : ∀ e, P e → f.Live e) :
    Script.Tame ρ P (f.read r) fun v e => e.heap.cell? (f.cell r) = some v ∧ P e := by
  refine .ite (fun h => absurd h (by have := (hf.index hr).1; omega)) fun _ => ?_
  refine .getHeap_bind (fun h t _ => ?_) fun h hg => ?_
  · rw [show ∀ h : Heap, h.cell? ⟨f.window, ((f.base : Int) + r).toNat⟩ = h.cell? (f.cell r) from
      fun _ => rfl, Heap.cell?_graft hfree]
    rfl
  · split
    · rename_i v hv
      refine .pure fun e he => ⟨?_, he.1⟩
      rw [he.2]
      exact hv
    · rename_i hnone
      rintro e - ⟨he, rfl⟩
      obtain ⟨v, hv⟩ := Heap.cell?_isSome (hf.inside hr (hP e he))
      exact absurd (hv.symm.trans hnone) (by simp)

theorem tame_read (hf : f.Proper ρ) (hr : f.Has r) (hP : ∀ e, P e → f.Live e) :
    Script.Tame ρ P (f.read r) fun v e => e.heap.cell? (f.cell r) = some v ∧ P e :=
  tame_read_free hf (hf.free _) hr hP

theorem tame_slot {σ : Option Region} (hf : f.Proper σ) (hr : f.Has r) :
    Script.Tame ρ f.Live (f.slot r) fun n e => n = ((f.base : Int) + r).toNat ∧ f.Live e := by
  refine .getHeap_bind (fun h t _ => by simp only [Heap.size_window_graft]) fun h hg => ?_
  refine .ite (fun _ => .pure fun e he => ⟨rfl, he.1⟩) fun hn => ?_
  rintro e - ⟨he, rfl⟩
  have hin := hf.inside hr he
  have hpos := (hf.index hr).1
  simp only [cell] at hin
  omega

/-- Writing a register that may be used. -/
theorem tame_write_free {σ : Option Region} (hf : f.Proper σ) (hfree : (f.cell r).Free ρ)
    (hr : f.Has r) (v : Value) :
    Script.Tame ρ f.Live (f.write r v) fun _ e =>
      e.heap.cell? (f.cell r) = some v ∧ f.Live e := by
  refine (tame_slot hf hr).bind fun n => .assume fun hn => ?_
  subst hn
  refine .modifyHeap (fun h t _ => Heap.setCell_graft hfree v)
    (fun e _ _ => Heap.keeps_setCell _ v) fun e _ he hx => ⟨?_, lasting_live f _ _ hx he⟩
  exact Heap.cell?_setCell_self (hf.inside hr he) v

theorem tame_write (hf : f.Proper ρ) (hr : f.Has r) (v : Value) :
    Script.Tame ρ f.Live (f.write r v) fun _ e =>
      e.heap.cell? (f.cell r) = some v ∧ f.Live e :=
  tame_write_free hf (hf.free _) hr v

/-! ## Constants -/

theorem constant_eq {k : Int} {v : Constant} (h : f.chunk.constantAt? k = some v) :
    f.constant k = pure v := by
  unfold constant
  rw [show (if 0 ≤ k then f.chunk.constants[k.toNat]? else none) = some v from h]

theorem name_eq {k : Int} {s : String} (h : f.chunk.nameAt? k = some s) : f.name k = pure s := by
  unfold Chunk.nameAt? at h
  split at h
  · rename_i s' hs
    cases h
    unfold name
    rw [constant_eq hs]
    rfl
  · cases h

@[simp] theorem pairEntries_graft {h : Heap} {t : Nat → Value} (items : List Value)
    (entries : Dict) : pairEntries (h.graft ρ t) items entries = pairEntries h items entries := by
  fun_induction pairEntries h items entries with
  | case1 key v items entries ih => rw [pairEntries, Heap.text_graft, ih]
  | case2 items entries hn =>
    rw [pairEntries]
    exact hn

/-! ## Steady computations -/

namespace Steady

variable {α β : Type} {m : Script α}

theorem pure (a : α) : f.Steady ρ (pure a : Script α) :=
  Script.Tame.pure fun _ h => h

theorem raise {cause : RuntimeFault} (h : cause.isInternal = false) :
    f.Steady ρ (Script.raise cause : Script α) :=
  Script.Tame.raise h

theorem bind {k : α → Script β} (hm : f.Steady ρ m) (hk : ∀ a, f.Steady ρ (k a)) :
    f.Steady ρ (m >>= k) :=
  Script.Tame.bind hm hk

theorem ite {c : Prop} [Decidable c] {m₁ m₂ : Script α} (h₁ : f.Steady ρ m₁)
    (h₂ : f.Steady ρ m₂) : f.Steady ρ (if c then m₁ else m₂) :=
  Script.Tame.ite (fun _ => h₁) fun _ => h₂

theorem ofCalm (h : Script.Calm ρ m) : f.Steady ρ m :=
  (h.carry (lasting_live f)).consequence (fun _ h => h) fun _ _ h => h.2

theorem ofHeap {k : Heap → Script β} (hgraft : ∀ h t, h.Guarded ρ → k (h.graft ρ t) = k h)
    (hk : ∀ h, h.Guarded ρ → f.Steady ρ (k h)) : f.Steady ρ (Script.getHeap >>= k) :=
  Script.Tame.ofHeap hgraft hk

theorem read (hf : f.Proper ρ) (hr : f.Has r) : f.Steady ρ (f.read r) :=
  (tame_read hf hr fun _ h => h).consequence (fun _ h => h) fun _ _ h => h.2

theorem write (hf : f.Proper ρ) (hr : f.Has r) (v : Value) : f.Steady ρ (f.write r v) :=
  (tame_write hf hr v).consequence (fun _ h => h) fun _ _ h => h.2

theorem number (hf : f.Proper ρ) (hr : f.Has r) : f.Steady ρ (f.number r) :=
  (read hf hr).bind fun v => .ofCalm (Script.calm_toNumber v)

theorem int (hf : f.Proper ρ) (hr : f.Has r) : f.Steady ρ (f.int r) :=
  (read hf hr).bind fun _ => .ofCalm (Script.calm_ofExcept fun _ => Script.toInt32_error)

theorem rangeFrom (hf : f.Proper ρ) (before : Array Value) (first : Int) (count : Nat)
    (h : ∀ k : Nat, k < count → f.Has (first + k)) :
    f.Steady ρ (f.rangeFrom before first count) := by
  induction count generalizing before first with
  | zero => exact pure _
  | succ count ih =>
    have hfirst : f.Has first := by simpa using h 0 (Nat.succ_pos _)
    refine (read hf hfirst).bind fun v => ih _ _ fun k hk => ?_
    have hlater := h (k + 1) (Nat.succ_lt_succ hk)
    rwa [Nat.cast_add, Nat.cast_one, add_comm (k : Int), ← add_assoc] at hlater

theorem range (hf : f.Proper ρ) {first behind : Int} (hfirst : f.Has first)
    (hbehind : f.Has behind) : f.Steady ρ (f.range first behind) := by
  refine rangeFrom hf _ _ _ fun k hk => ⟨?_, ?_⟩
  · have := hfirst.1
    omega
  · have := hbehind.2
    omega

/-! ## Operators -/

variable {i : Instruction}

theorem intOp (hf : f.Proper ρ) (ha : f.Has i.a) (hb : f.Has i.b) (hc : f.Has i.c)
    (op : Int32 → Int32 → Int32) : f.Steady ρ (f.intOp i op) :=
  (int hf hb).bind fun _ => (int hf hc).bind fun _ => write hf ha _

theorem numberOp (hf : f.Proper ρ) (ha : f.Has i.a) (hb : f.Has i.b) (hc : f.Has i.c)
    (op : Number → Number → Number) : f.Steady ρ (f.numberOp i op) :=
  (number hf hb).bind fun _ => (number hf hc).bind fun _ => write hf ha _

theorem testOp (hf : f.Proper ρ) (ha : f.Has i.a) (hb : f.Has i.b) (hc : f.Has i.c)
    (op : Value → Value → Bool) : f.Steady ρ (f.testOp i op) :=
  (read hf hb).bind fun _ => (read hf hc).bind fun _ => write hf ha _

theorem orderOp (hf : f.Proper ρ) (ha : f.Has i.a) (hb : f.Has i.b) (hc : f.Has i.c)
    (swapped : Bool) {op : Heap → Value → Value → Bool}
    (hop : ∀ h t x y, op (Heap.graft ρ t h) x y = op h x y) :
    f.Steady ρ (f.orderOp i swapped op) := by
  have hx : f.Has (if swapped then i.c else i.b) := by split <;> assumption
  have hy : f.Has (if swapped then i.b else i.c) := by split <;> assumption
  refine (read hf hx).bind fun x => (read hf hy).bind fun y => ?_
  exact ofHeap (fun h t _ => by rw [hop]) fun _ _ => write hf ha _

theorem add (hf : f.Proper ρ) (ha : f.Has i.a) (hb : f.Has i.b) (hc : f.Has i.c) :
    f.Steady ρ (f.add i) := by
  refine (read hf hb).bind fun x => (read hf hc).bind fun y => ?_
  split
  · exact (ofCalm (Script.calm_textOf y)).bind fun _ => write hf ha _
  · refine (ofCalm (Script.calm_toNumber _)).bind fun m => ?_
    exact (ofCalm (Script.calm_toNumber y)).bind fun n => write hf ha _

theorem intDiv (hf : f.Proper ρ) (ha : f.Has i.a) (hb : f.Has i.b) (hc : f.Has i.c) :
    f.Steady ρ (f.intDiv i) := by
  refine (int hf hc).bind fun divisor => ?_
  have hrest := (int hf hb).bind fun x => write hf ha (.ofInt (x / divisor).toInt)
  exact .ite ((raise rfl).bind fun _ => hrest) hrest

theorem char (hf : f.Proper ρ) (ha : f.Has i.a) (hb : f.Has i.b) : f.Steady ρ (f.char i) := by
  refine (read hf hb).bind fun v => (ofCalm (Script.calm_textOf v)).bind fun text => ?_
  split
  · exact write hf ha _
  · exact raise rfl

theorem stringOf (hf : f.Proper ρ) (ha : f.Has i.a) (hb : f.Has i.b) :
    f.Steady ρ (f.stringOf i) :=
  (int hf hb).bind fun _ => .ite (write hf ha _) (raise rfl)

/-! ## Registers and jumps -/

theorem copy (hf : f.Proper ρ) (hcall : call.Calm ρ) {dest source : Int} (hd : f.Has dest)
    (hs : f.Has source) : f.Steady ρ (f.copy call dest source) := by
  refine (read hf hs).bind fun v => .ite ((read hf hd).bind fun old => ?_) (write hf hd v)
  split
  · exact ofHeap (fun _ _ _ => rfl) fun h hg =>
      ofCalm (Script.calm_write hcall (hg.property _) v)
  · exact write hf hd v

theorem stepBefore (hf : f.Proper ρ) (ha : f.Has i.a) (hb : f.Has i.b) (op : Int32 → Int32) :
    f.Steady ρ (f.stepBefore i op) := by
  refine (int hf hb).bind fun n => (write hf hb _).bind fun _ => ?_
  exact .ite (pure _) (write hf ha _)

theorem stepAfter (hf : f.Proper ρ) (ha : f.Has i.a) (hb : f.Has i.b) (op : Int32 → Int32) :
    f.Steady ρ (f.stepAfter i op) := by
  refine (read hf hb).bind fun old => ?_
  refine (ofCalm (Script.calm_ofExcept fun _ => Script.toInt32_error)).bind fun n => ?_
  exact (write hf ha old).bind fun _ => write hf hb _

/-! ## Objects -/

theorem makeDict (hf : f.Proper ρ) (ha : f.Has i.a) (hb : f.Has i.b) (hc : f.Has i.c) :
    f.Steady ρ (f.makeDict i) := by
  refine (range hf hb hc).bind fun items => ofHeap (fun h t _ => ?_) fun h _ => ?_
  · rw [pairEntries_graft]
  · exact (ofCalm (Script.calm_newDict _)).bind fun _ => write hf ha _

theorem name (k : Int) (hk : (f.chunk.nameAt? k).isSome) : f.Steady ρ (f.name k) := by
  obtain ⟨s, hs⟩ := Option.isSome_iff_exists.1 hk
  rw [name_eq hs]
  exact pure s

theorem globalClass (name : String) : f.Steady ρ (globalClass name) := by
  refine Script.Tame.get_bind (fun e t hg _ => ?_) fun e hg he => ?_
  · have hlookup : (e.graft ρ t).heap.lookup? (e.graft ρ t).globalScope name =
        e.heap.lookup? e.globalScope name := Heap.lookup?_graft hg _ _
    simp only [hlookup]
  · have hlive : ∀ e', e' = e → f.Live e' := fun _ h => h ▸ he
    split
    · exact .pure hlive
    · exact .raise rfl

theorem resolveClass (target : Value) (fallback : Int)
    (h : 0 ≤ fallback → (f.chunk.nameAt? fallback).isSome) :
    f.Steady ρ (f.resolveClass target fallback) := by
  unfold Frame.resolveClass
  split
  · exact pure _
  · exact globalClass _
  · refine Script.Tame.ite (fun hn => ?_) fun _ => raise rfl
    exact (name fallback (h hn)).bind fun s => globalClass s

theorem instanceOf (hf : f.Proper ρ) (ha : f.Has i.a) (hb : f.Has i.b) (hc : f.Has i.c) :
    f.Steady ρ (f.instanceOf i) := by
  refine (read hf hc).bind fun target => ofHeap (fun h t _ => ?_) fun h _ => ?_
  · simp only [Heap.text_graft, Heap.classObject_graft, Heap.isInstanceOf_graft]
  · exact (read hf hb).bind fun v => write hf ha _

end Steady

/-! ## Instructions that make functions -/

variable {i : Instruction}

/-- The value of a constant; that of a template is a function. -/
theorem tame_constantValue (hf : f.Proper ρ) {k : Int} (hk : (f.chunk.constantAt? k).isSome) :
    Script.Tame ρ f.Live (f.constantValue k) fun v e =>
      (∀ inner, f.chunk.constantAt? k = some (.template inner) → ∃ g, v = .function g) ∧
        f.Live e := by
  obtain ⟨c, hc⟩ := Option.isSome_iff_exists.1 hk
  unfold constantValue
  rw [constant_eq hc, pure_bind]
  cases c with
  | value v =>
    refine .pure fun e he => ⟨fun inner hinner => ?_, he⟩
    rw [hc] at hinner
    cases hinner
  | template chunk =>
    have hcompiled : Function.Compiled { body := .script chunk } := fun c h => by
      cases h
      exact hf.compiled.template hc
    refine Script.Tame.bind (Q := fun _ => f.Live) ?_ fun g => .pure fun e he => ⟨?_, he⟩
    · exact (Script.Calm.onHeap (fun _ _ _ => rfl) fun _ => Heap.keeps_newFunction hcompiled).carry
        (lasting_live f) |>.consequence (fun _ h => h) fun _ _ h => h.2
    · exact fun _ _ => ⟨g, rfl⟩

/-- Loading a constant leaves a function if the constant is a template. -/
theorem tame_loadConst (hf : f.Proper ρ) (ha : f.Has i.a)
    (hk : (f.chunk.constantAt? i.b).isSome) :
    Script.Tame ρ f.Live (do f.write i.a (← f.constantValue i.b)) fun _ e =>
      f.Live e ∧ ((∃ inner, f.chunk.constantAt? i.b = some (.template inner)) → f.Holds i.a e) := by
  refine (tame_constantValue hf hk).bind fun v => .assume fun hv => ?_
  refine (tame_write hf ha v).consequence (fun _ h => h) fun _ e he => ⟨he.2, ?_⟩
  rintro ⟨inner, hinner⟩
  obtain ⟨g, rfl⟩ := hv inner hinner
  exact ⟨g, he.1⟩

/-- Reading a register that holds a function gives one. -/
theorem tame_read_function (hf : f.Proper ρ) (ha : f.Has r) {β : Type} {k : Value → Script β}
    {Q : β → Engine → Prop} (hk : ∀ g, Script.Tame ρ f.Live (k (.function g)) Q) :
    Script.Tame ρ (fun e => f.Live e ∧ f.Holds r e) (f.read r >>= k) Q := by
  refine (tame_read hf ha fun _ h => h.1).bind fun v e hg ⟨hv, hlive, g, hholds⟩ => ?_
  obtain rfl : v = .function g := Option.some.inj (hv.symm.trans hholds)
  exact hk g e hg hlive

/-- Puts a new function into a register. -/
theorem tame_writeFunction (hf : f.Proper ρ) (ha : f.Has r) {g : Function} (hg : g.Compiled) :
    Script.Tame ρ f.Live (do f.write r (← Script.newFunction g)) fun _ e =>
      f.Live e ∧ f.Holds r e := by
  refine Script.Tame.bind (Q := fun v e => (∃ g, v = .function g) ∧ f.Live e) ?_ fun v =>
    .assume fun hv => ?_
  · refine Script.Tame.bind (Q := fun _ => f.Live) ?_ fun g => .pure fun e he => ⟨⟨g, rfl⟩, he⟩
    exact Steady.ofCalm (.onHeap (fun _ _ _ => rfl) fun _ => Heap.keeps_newFunction hg)
  · obtain ⟨g, rfl⟩ := hv
    exact (tame_write hf ha _).consequence (fun _ h => h) fun _ e he => ⟨he.2, g, he.1⟩

theorem tame_makeFunction (hf : f.Proper ρ) (ha : f.Has i.a) (hb : f.Has i.b) (hc : f.Has i.c) :
    Script.Tame ρ (fun e => f.Live e ∧ f.Holds i.a e) (f.makeFunction i) fun _ e =>
      f.Live e ∧ f.Holds i.a e := by
  refine tame_read_function hf ha fun g => Script.Tame.bind (Steady.range hf hb hc) fun defaults => ?_
  refine .get_bind (fun _ _ _ _ => rfl) fun e hg he => ?_
  refine (tame_writeFunction hf ha ?_).consequence (fun e' (h : e' = e) => h ▸ he) fun _ _ h => h
  exact hg.function g

theorem tame_bindClosure (hf : f.Proper ρ) (ha : f.Has i.a) :
    Script.Tame ρ (fun e => f.Live e ∧ f.Holds i.a e) (f.bindClosure i) fun _ e =>
      f.Live e ∧ f.Holds i.a e := by
  refine tame_read_function hf ha fun g => .ofHeap (fun _ _ _ => rfl) fun h hg => ?_
  exact tame_writeFunction hf ha (hg.function g)

/-! ## Dispatch -/

theorem has_of_fits {n : Nat} (hi : f.chunk.Fits n i) :
    (i.op.registerOperands.1 = true → f.Has i.a) ∧
      (i.op.registerOperands.2.1 = true → f.Has i.b) ∧
        (i.op.registerOperands.2.2 = true → f.Has i.c) := by
  refine ⟨fun h => hi.registers _ ?_, fun h => hi.registers _ ?_, fun h => hi.registers _ ?_⟩ <;>
    simp [Instruction.registers, h]

/-- A local is recorded in its register. -/
theorem steady_registerLocal (hf : f.Proper ρ) (ha : f.Has i.a) (hneg : i.a < 0)
    (hk : (f.chunk.nameAt? i.b).isSome) :
    f.Steady ρ (do
      let name ← f.name i.b
      let index ← f.slot i.a
      Script.modifyHeap (·.registerLocal f.activation name index)) := by
  refine (Steady.name i.b hk).bind fun name => ?_
  refine (tame_slot hf ha).bind fun index => .assume fun hindex => ?_
  subst hindex
  refine .modifyHeap (fun _ _ _ => rfl) (fun e _ he => ?_) fun e _ he hx =>
    lasting_live f _ _ hx he
  refine Heap.keeps_registerLocal name he.activation (hf.inside ha he) fun r hr hw => ?_
  have := (hf.apart r hr hw).2
  have := (hf.index ha).1
  dsimp only
  omega

/-- Instructions other than those that take a function. -/
theorem steady_perform (hf : f.Proper ρ) (hcall : call.Calm ρ) {n : Nat}
    (hi : f.chunk.Fits n i) (hop : i.op.takesFunction = false) :
    f.Steady ρ (f.perform call i) := by
  obtain ⟨ha, hb, hc⟩ := has_of_fits hi
  have hconst := hi.constant
  have hname := hi.name
  have hlocal := hi.named
  obtain ⟨op, a, b, c, place⟩ := i
  dsimp only at ha hb hc hlocal
  cases op <;> try cases hop
  case bitAnd | bitOr | bitXor | shl | shr =>
    exact Steady.intOp hf (ha rfl) (hb rfl) (hc rfl) _
  case sub | mod | div | mul => exact Steady.numberOp hf (ha rfl) (hb rfl) (hc rfl) _
  case add => exact Steady.add hf (ha rfl) (hb rfl) (hc rfl)
  case intDiv => exact Steady.intDiv hf (ha rfl) (hb rfl) (hc rfl)
  case and =>
    refine (Steady.read hf (hb rfl)).bind fun x => .ite ?_ (.write hf (ha rfl) _)
    exact (Steady.read hf (hc rfl)).bind fun y => .write hf (ha rfl) _
  case or =>
    refine (Steady.read hf (hb rfl)).bind fun x => .ite (.write hf (ha rfl) _) ?_
    exact (Steady.read hf (hc rfl)).bind fun y => .write hf (ha rfl) _
  case eq | notEq | strictEq | strictNotEq =>
    exact Steady.testOp hf (ha rfl) (hb rfl) (hc rfl) _
  case gt | lt =>
    exact Steady.orderOp hf (ha rfl) (hb rfl) (hc rfl) _ fun _ _ _ _ => Heap.greaterThan_graft _ _
  case ge | le =>
    exact Steady.orderOp hf (ha rfl) (hb rfl) (hc rfl) _
      fun _ _ _ _ => Heap.greaterOrEqual_graft _ _
  case not => exact (Steady.read hf (hb rfl)).bind fun v => .write hf (ha rfl) _
  case bitNot | toInt => exact (Steady.int hf (hb rfl)).bind fun n => .write hf (ha rfl) _
  case toReal | toNumber | negate =>
    exact (Steady.number hf (hb rfl)).bind fun x => .write hf (ha rfl) _
  case toStr =>
    refine (Steady.read hf (hb rfl)).bind fun v => ?_
    exact (Steady.ofCalm (Script.calm_textOf v)).bind fun text => .write hf (ha rfl) _
  case char => exact Steady.char hf (ha rfl) (hb rfl)
  case strOf => exact Steady.stringOf hf (ha rfl) (hb rfl)
  case typeOf => exact (Steady.read hf (hb rfl)).bind fun v => .write hf (ha rfl) _
  case dot =>
    refine (Steady.read hf (hb rfl)).bind fun v => (Steady.read hf (hc rfl)).bind fun key => ?_
    exact (Steady.ofCalm (Script.calm_getMember hcall v key)).bind fun x => .write hf (ha rfl) _
  case dotSet =>
    refine (Steady.read hf (ha rfl)).bind fun v => (Steady.read hf (hb rfl)).bind fun key => ?_
    exact (Steady.read hf (hc rfl)).bind fun x => .ofCalm (Script.calm_setMember hcall v key x)
  case dotSetVoid =>
    refine (Steady.read hf (ha rfl)).bind fun v => (Steady.read hf (hb rfl)).bind fun key => ?_
    exact .ofCalm (Script.calm_setMember hcall v key .void)
  case delete =>
    refine (Steady.read hf (ha rfl)).bind fun v => (Steady.read hf (hb rfl)).bind fun key => ?_
    exact .ofCalm (Script.calm_removeMember v key)
  case loadConst =>
    exact (tame_loadConst (i := ⟨.loadConst, a, b, c, place⟩) hf (ha rfl)
      (hconst b rfl)).consequence (fun _ h => h) fun _ _ h => h.1
  case copy => exact Steady.copy hf hcall (ha rfl) (hb rfl)
  case loadVoid | loadTrue | loadFalse => exact Steady.write hf (ha rfl) _
  case call =>
    refine (Steady.read hf (ha rfl)).bind fun callee => ?_
    refine (Steady.range hf (hb rfl) (hc rfl)).bind fun args => ?_
    exact (Steady.ofCalm (Script.calm_callValue hcall callee args)).bind fun x =>
      .write hf (ha rfl) _
  case inc | dec => exact Steady.stepBefore hf (ha rfl) (hb rfl) _
  case postInc | postDec => exact Steady.stepAfter hf (ha rfl) (hb rfl) _
  case makeArray =>
    refine (Steady.range hf (hb rfl) (hc rfl)).bind fun items => ?_
    exact (Steady.ofCalm (Script.calm_newArray items)).bind fun x => .write hf (ha rfl) _
  case makeDict => exact Steady.makeDict hf (ha rfl) (hb rfl) (hc rfl)
  case newObject =>
    refine (Steady.read hf (hb rfl)).bind fun target => Steady.bind ?_ fun x =>
      .write hf (ha rfl) _
    refine Steady.resolveClass target c fun hn => hname c ?_
    simp only [Instruction.name?]
    rw [if_neg (by omega)]
  case instanceOf => exact Steady.instanceOf hf (ha rfl) (hb rfl) (hc rfl)
  case loadGlobal =>
    refine Script.Tame.get_bind (fun _ _ _ _ => rfl) fun e _ he => ?_
    exact (Steady.write hf (ha rfl) _).consequence (fun e' (h : e' = e) => h ▸ he) fun _ _ h => h
  case registerLocal =>
    exact steady_registerLocal (i := ⟨.registerLocal, a, b, c, place⟩) hf (ha rfl) (hlocal rfl)
      (hname b rfl)
  case captureUpvalue =>
    refine (Steady.name a (hname a rfl)).bind fun name => .ofCalm ?_
    exact .modifyHeap (fun _ _ => Heap.captureUpvalue_graft _ _) fun _ =>
      Heap.keeps_captureUpvalue _ _
  case nop | jump | jumpFalse | jumpTrue | ret | retVoid => exact Steady.pure ()

/-- An instruction that does not jump. -/
theorem tame_perform (hf : f.Proper ρ) (hcall : call.Calm ρ) {n : Nat} (hi : f.chunk.Fits n i) :
    Script.Tame ρ (fun e => f.Live e ∧ (i.op.takesFunction = true → f.Holds i.a e))
      (f.perform call i) fun _ e => f.Live e ∧ (f.chunk.Fills i i.a → f.Holds i.a e) := by
  obtain ⟨ha, hb, hc⟩ := has_of_fits hi
  by_cases hmake : i.op = .makeFunc
  · have hperform : f.perform call i = f.makeFunction i := by simp only [perform, hmake]
    rw [hmake] at ha hb hc ⊢
    rw [hperform]
    exact (tame_makeFunction hf (ha rfl) (hb rfl) (hc rfl)).consequence
      (fun _ h => ⟨h.1, h.2 rfl⟩) fun _ _ h => ⟨h.1, fun _ => h.2⟩
  by_cases hbind : i.op = .bindClosure
  · have hperform : f.perform call i = f.bindClosure i := by simp only [perform, hbind]
    rw [hbind] at ha ⊢
    rw [hperform]
    exact (tame_bindClosure hf (ha rfl)).consequence
      (fun _ h => ⟨h.1, h.2 rfl⟩) fun _ _ h => ⟨h.1, fun _ => h.2⟩
  by_cases hload : i.op = .loadConst
  · have hperform : f.perform call i = (do f.write i.a (← f.constantValue i.b)) := by
      simp only [perform, hload]
    have hconst : (f.chunk.constantAt? i.b).isSome :=
      hi.constant _ (by simp only [Instruction.constant?, hload])
    rw [hload] at ha
    rw [hperform]
    refine (tame_loadConst hf (ha rfl) hconst).consequence (fun _ h => h.1) fun _ e h => ?_
    exact ⟨h.1, fun hfill => h.2 (hfill.2.resolve_left hmake).2⟩
  · have htakes : i.op.takesFunction = false := by
      cases hop : i.op <;> simp_all [Op.takesFunction]
    refine (steady_perform hf hcall hi htakes).consequence (fun _ h => h.1) fun _ e h => ?_
    refine ⟨h, fun hfill => ?_⟩
    rcases hfill.2 with hop | ⟨hop, -⟩
    · exact absurd hop hmake
    · exact absurd hop hload

end Frame

end ScriptEngine
