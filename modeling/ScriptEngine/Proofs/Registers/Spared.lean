import ScriptEngine.Proofs.Expression.Runs
import ScriptEngine.Proofs.Registers.Confined

/-!
# Registers that instructions leave alone

An instruction changes no temporary but those that it writes: `f.Spares r m` says that a
computation `m` of the frame `f` leaves the contents of the temporary `r` as they are, if it
succeeds. No other code can change them either. What an instruction calls is tame, and so cannot
tell what the temporaries hold (`Spares.steady`).

A frame keeps the contents of a temporary for as long as it passes instructions that do not write
it (`Frame.Passes.spares`).
-/

namespace ScriptEngine

namespace Frame

variable {α β : Type} {f : Frame} {r s : Int} {m : Script α} {e e' : Engine}

/-- A computation leaves a temporary alone; see the head of the module. -/
def Spares (f : Frame) (r : Int) (m : Script α) : Prop :=
  ∀ e, f.Sits e → ∀ a e', m e = .ok a e' → f.Sits e' ∧ f.contents e' r = f.contents e r

/-- A temporary that is filled with what it held before holds that. -/
theorem contents_fill (hr : 0 ≤ r) (he : f.Live e) (he' : f.Live e') :
    f.contents (f.fill (f.contents e) e') r = f.contents e r := by
  have hcell : (f.fill (f.contents e) e').heap.cell? (f.cell r) =
      (e'.heap.cell? (f.cell r)).map fun _ => f.contents e r := by
    unfold Heap.cell?
    rw [window_fill, if_pos (show f.window = (f.cell r).window from rfl), Region.getElem?_overwrite,
      cell_sub_base hr]
    simp only [if_pos (base_le_cell hr)]
  by_cases hin : (f.cell r).index < f.chunk.windowSize
  · obtain ⟨v, hv⟩ := Heap.cell?_isSome (h := e'.heap) (c := f.cell r) (he'.size ▸ hin)
    rw [contents, hcell, hv]
    rfl
  · have hnone : e.heap.cell? (f.cell r) = none :=
      Array.getElem?_eq_none (not_lt.1 (he.size ▸ hin))
    have hnone' : e'.heap.cell? (f.cell r) = none :=
      Array.getElem?_eq_none (not_lt.1 (he'.size ▸ hin))
    rw [contents, hcell, hnone', contents, hnone]
    rfl

theorem Live.slot (hf : f.Proper none) (he : f.Live e) (hhas : f.Has s) :
    f.slot s e = .ok (f.cell s).index e := by
  have hsize : ((f.base : Int) + s).toNat < (e.heap.window f.window).size :=
    hf.inside hhas he
  have hindex := (hf.index hhas).1
  show (if _ ∧ ((f.base : Int) + s) < (e.heap.window f.window).size then
    (pure _ : Script Nat) else Script.raise (.registerOutside s)) e = _
  rw [if_pos ⟨hindex, by omega⟩]
  rfl

theorem Live.write (hf : f.Proper none) (he : f.Live e) (hhas : f.Has s) (v : Value) :
    f.write s v e = .ok () { e with heap := e.heap.setCell (f.cell s) v } := by
  rw [Frame.write, Script.bind_apply, he.slot hf hhas]
  rfl

namespace Spares

theorem pure (a : α) : f.Spares r (pure a : Script α) := fun e he b e' h => by
  cases h
  exact ⟨he, rfl⟩

theorem raise {cause : RuntimeFault} : f.Spares r (Script.raise cause : Script α) :=
  fun _ _ _ _ h => by cases h

theorem bind {k : α → Script β} (hm : f.Spares r m) (hk : ∀ a, f.Spares r (k a)) :
    f.Spares r (m >>= k) := by
  intro e he b e' h
  rw [Script.bind_apply] at h
  rcases hme : m e with ⟨a, e₁⟩ | ⟨x, e₁⟩ <;> rw [hme] at h
  · obtain ⟨he₁, hsame⟩ := hm e he a e₁ hme
    obtain ⟨he', hsame'⟩ := hk a e₁ he₁ b e' h
    exact ⟨he', hsame'.trans hsame⟩
  · cases h

theorem ite {c : Prop} [Decidable c] {m₁ m₂ : Script α} (h₁ : f.Spares r m₁)
    (h₂ : f.Spares r m₂) : f.Spares r (if c then m₁ else m₂) := by
  split
  · exact h₁
  · exact h₂

/-- Looking at the engine. -/
theorem get_bind {k : Engine → Script β} (hk : ∀ e, f.Sits e → f.Spares r (k e)) :
    f.Spares r (get >>= k) :=
  fun e he => hk e he e he

theorem getHeap_bind {k : Heap → Script β} (hk : ∀ h, h.Guarded f.temps → f.Spares r (k h)) :
    f.Spares r (Script.getHeap >>= k) :=
  fun e he => hk e.heap he.guarded e he

/-- What commutes with a change of the temporaries leaves them alone. -/
theorem steady (hr : 0 ≤ r) (hm : f.Steady f.temps m) : f.Spares r m := by
  intro e he a e' h
  obtain ⟨hallow, hgraft⟩ := hm e he.guarded he.live
  rw [h] at hallow
  have hlive := hallow.result a e' rfl
  refine ⟨⟨hallow.guarded, hlive⟩, ?_⟩
  have hfill : m (f.fill (f.contents e) e) = .ok a (f.fill (f.contents e) e') := by
    have := hgraft fun i => f.contents e ((i : Int) - f.base)
    rwa [h] at this
  rw [fill_contents, h] at hfill
  obtain ⟨-, hsame⟩ := EStateM.Result.ok.inj hfill
  rw [hsame, contents_fill hr he.live hlive]

theorem calm (hr : 0 ≤ r) (hm : Script.Calm f.temps m) : f.Spares r m :=
  steady hr (.ofCalm hm)

theorem tracing (h : f.Spares r m) (place : Position) : f.Spares r (Script.tracing place m) := by
  intro e he a e' ha
  simp only [Script.tracing] at ha
  rcases hm : m e with ⟨b, e₁⟩ | ⟨_ | _, e₁⟩ <;> rw [hm] at ha
  · cases ha
    exact h e he _ _ hm
  · cases ha
  · cases ha

theorem read : f.Spares r (f.read s) := by
  refine .ite raise (getHeap_bind fun h _ => ?_)
  split
  · exact pure _
  · exact raise

theorem number (hr : 0 ≤ r) : f.Spares r (f.number s) :=
  read.bind fun v => calm hr (Script.calm_toNumber v)

theorem int (hr : 0 ≤ r) : f.Spares r (f.int s) :=
  read.bind fun _ => calm hr (Script.calm_ofExcept fun _ => Script.toInt32_error)

theorem rangeFrom (before : Array Value) (first : Int) (count : Nat) :
    f.Spares r (f.rangeFrom before first count) := by
  induction count generalizing before first with
  | zero => exact pure _
  | succ count ih => exact read.bind fun v => ih _ _

theorem constant (k : Int) : f.Spares r (f.constant k) := by
  unfold Frame.constant
  split
  · exact pure _
  · exact raise

theorem name (k : Int) : f.Spares r (f.name k) := by
  refine (constant k).bind fun c => ?_
  split
  · exact pure _
  · exact raise
  · exact raise

theorem slot : f.Spares r (f.slot s) :=
  getHeap_bind fun _ _ => .ite (pure _) raise

variable (hf : f.Proper none) (hr : 0 ≤ r)

include hf hr

/-- A write to another register. -/
theorem write (hhas : f.Has s) (hne : r ≠ s) (v : Value) : f.Spares r (f.write s v) := by
  intro e he a e' h
  rw [he.live.write hf hhas] at h
  obtain ⟨-, rfl⟩ := EStateM.Result.ok.inj h
  obtain ⟨hguarded, hextends⟩ := Heap.keeps_setCell (f.cell s) v he.guarded
  refine ⟨⟨hguarded, lasting_live f _ _ hextends he.live⟩, ?_⟩
  have hcell : f.cell s ≠ f.cell r := by
    intro heq
    have hindex : ((f.base : Int) + s).toNat = ((f.base : Int) + r).toNat :=
      congrArg Cell.index heq
    have := (hf.index hhas).1
    omega
  rw [contents, Heap.cell?_setCell, if_neg fun h => hcell h.1]
  rfl

/-- A computation whose value goes into another register. -/
theorem store {m : Script Value} (hhas : f.Has s) (hne : r ≠ s) (hm : f.Spares r m) :
    f.Spares r (do f.write s (← m)) :=
  hm.bind fun v => write hf hr hhas hne v

/-! ## Instructions -/

variable {i : Instruction} {call : Invoke}

theorem add (ha : f.Has i.a) (hne : r ≠ i.a) : f.Spares r (f.add i) := by
  refine read.bind fun x => read.bind fun y => ?_
  split
  · exact (calm hr (Script.calm_textOf y)).bind fun _ => write hf hr ha hne _
  · exact (calm hr (Script.calm_toNumber _)).bind fun _ =>
      (calm hr (Script.calm_toNumber y)).bind fun _ => write hf hr ha hne _

theorem intDiv (ha : f.Has i.a) (hne : r ≠ i.a) : f.Spares r (f.intDiv i) := by
  refine (int hr).bind fun divisor => ?_
  have hrest := (int (f := f) (s := i.b) hr).bind fun x =>
    write hf hr ha hne (.ofInt (x / divisor).toInt)
  exact .ite (raise.bind fun _ => hrest) hrest

theorem char (ha : f.Has i.a) (hne : r ≠ i.a) : f.Spares r (f.char i) := by
  refine read.bind fun v => (calm hr (Script.calm_textOf v)).bind fun text => ?_
  split
  · exact write hf hr ha hne _
  · exact raise

/-- A copy may call the setter of a property. -/
theorem copy (hcall : call.Calm f.temps) (ha : f.Has s) (hne : r ≠ s) (source : Int) :
    f.Spares r (f.copy call s source) := by
  refine read.bind fun v => .ite (read.bind fun old => ?_) (write hf hr ha hne v)
  split
  · exact getHeap_bind fun h hg => calm hr (Script.calm_write hcall (hg.property _) v)
  · exact write hf hr ha hne v

theorem stepBefore (ha : f.Has i.a) (hb : f.Has i.b) (hnea : r ≠ i.a) (hneb : r ≠ i.b)
    (op : Int32 → Int32) : f.Spares r (f.stepBefore i op) :=
  (int hr).bind fun _ => (write hf hr hb hneb _).bind fun _ =>
    .ite (pure _) (write hf hr ha hnea _)

theorem stepAfter (ha : f.Has i.a) (hb : f.Has i.b) (hnea : r ≠ i.a) (hneb : r ≠ i.b)
    (op : Int32 → Int32) : f.Spares r (f.stepAfter i op) :=
  read.bind fun old => (calm hr (Script.calm_ofExcept fun _ => Script.toInt32_error)).bind fun _ =>
    (write hf hr ha hnea old).bind fun _ => write hf hr hb hneb _

theorem makeDict (ha : f.Has i.a) (hne : r ≠ i.a) : f.Spares r (f.makeDict i) :=
  (rangeFrom _ _ _).bind fun _ => getHeap_bind fun _ _ =>
    store hf hr ha hne (calm hr (Script.calm_newDict _))

theorem makeFunction (ha : f.Has i.a) (hne : r ≠ i.a) : f.Spares r (f.makeFunction i) := by
  refine read.bind fun v => ?_
  split
  · exact (rangeFrom _ _ _).bind fun _ => get_bind fun e he =>
      store hf hr ha hne (calm hr (Script.calm_newFunction (he.guarded.function _)))
  · exact raise

theorem bindClosure (ha : f.Has i.a) (hne : r ≠ i.a) : f.Spares r (f.bindClosure i) := by
  refine read.bind fun v => ?_
  split
  · exact getHeap_bind fun h hg =>
      store hf hr ha hne (calm hr (Script.calm_newFunction (hg.function _)))
  · exact raise

theorem constantValue {k : Int} (hk : (f.chunk.constantAt? k).isSome) :
    f.Spares r (f.constantValue k) := by
  obtain ⟨c, hc⟩ := Option.isSome_iff_exists.1 hk
  unfold Frame.constantValue
  rw [constant_eq hc, pure_bind]
  cases c with
  | value v => exact pure v
  | template chunk =>
    refine calm hr (Script.calm_newFunction fun inner h => ?_)
    cases h
    exact hf.compiled.template hc

omit hf hr in
theorem globalClass (name : String) : f.Spares r (globalClass name) := by
  refine get_bind fun e _ => ?_
  split
  · exact pure _
  · exact raise

omit hf hr in
theorem resolveClass (target : Value) (fallback : Int) :
    f.Spares r (f.resolveClass target fallback) := by
  unfold Frame.resolveClass
  split
  · exact pure _
  · exact globalClass _
  · exact .ite ((name _).bind fun s => globalClass s) raise

theorem instanceOf (ha : f.Has i.a) (hne : r ≠ i.a) : f.Spares r (f.instanceOf i) :=
  read.bind fun _ => getHeap_bind fun _ _ => read.bind fun _ => write hf hr ha hne _

omit hr in
/-- A local is recorded in a register below the temporaries. -/
theorem registerLocal (ha : f.Has i.a) (hneg : i.a < 0) (hk : (f.chunk.nameAt? i.b).isSome) :
    f.Spares r (do
      let name ← f.name i.b
      let index ← f.slot i.a
      Script.modifyHeap (·.registerLocal f.activation name index)) := by
  obtain ⟨name, hname⟩ := Option.isSome_iff_exists.1 hk
  rw [name_eq hname, pure_bind]
  intro e he a e' h
  rw [Script.bind_apply, he.live.slot hf ha] at h
  cases h
  have hout : (f.cell i.a).Outside f.temps := by
    rintro _ ⟨⟩ -
    have := (hf.index ha).1
    show ((f.base : Int) + i.a).toNat < f.base
    omega
  obtain ⟨hguarded, hextends⟩ := Heap.keeps_registerLocal name he.live.activation
    (hf.inside ha he.live) hout he.guarded
  exact ⟨⟨hguarded, lasting_live f _ _ hextends he.live⟩, rfl⟩

end Spares

/-- An instruction leaves the temporaries alone that it does not write. -/
theorem spares_perform (hf : f.Proper none) {call : Invoke} (hcall : call.Calm f.temps) {n : Nat}
    {i : Instruction} (hi : f.chunk.Fits n i) (hr : 0 ≤ r) (hw : r ∉ i.written) :
    f.Spares r (f.perform call i) := by
  obtain ⟨ha, hb, hc⟩ := has_of_fits hi
  have hconst := hi.constant
  have hname := hi.name
  have hlocal := hi.named
  have hnea : i.op.writes.1 = true → r ≠ i.a := fun h heq =>
    hw (Instruction.mem_written.2 (.inl ⟨h, heq⟩))
  have hneb : i.op.writes.2 = true → r ≠ i.b := fun h heq =>
    hw (Instruction.mem_written.2 (.inr ⟨h, heq⟩))
  obtain ⟨op, a, b, c, place⟩ := i
  dsimp only at ha hb hc hlocal hnea hneb
  cases op
  case bitAnd | bitOr | bitXor | shl | shr =>
    exact (Spares.int hr).bind fun _ => (Spares.int hr).bind fun _ =>
      .write hf hr (ha rfl) (hnea rfl) _
  case sub | mod | div | mul =>
    exact (Spares.number hr).bind fun _ => (Spares.number hr).bind fun _ =>
      .write hf hr (ha rfl) (hnea rfl) _
  case add => exact Spares.add (i := ⟨.add, a, b, c, place⟩) hf hr (ha rfl) (hnea rfl)
  case intDiv => exact Spares.intDiv (i := ⟨.intDiv, a, b, c, place⟩) hf hr (ha rfl) (hnea rfl)
  case and =>
    refine Spares.read.bind fun x => .ite ?_ (.write hf hr (ha rfl) (hnea rfl) _)
    exact Spares.read.bind fun y => .write hf hr (ha rfl) (hnea rfl) _
  case or =>
    refine Spares.read.bind fun x => .ite (.write hf hr (ha rfl) (hnea rfl) _) ?_
    exact Spares.read.bind fun y => .write hf hr (ha rfl) (hnea rfl) _
  case eq | notEq | strictEq | strictNotEq =>
    exact Spares.read.bind fun _ => Spares.read.bind fun _ => .write hf hr (ha rfl) (hnea rfl) _
  case gt | lt | ge | le =>
    exact Spares.read.bind fun _ => Spares.read.bind fun _ => .getHeap_bind fun _ _ =>
      .write hf hr (ha rfl) (hnea rfl) _
  case not | typeOf => exact Spares.read.bind fun v => .write hf hr (ha rfl) (hnea rfl) _
  case bitNot | toInt => exact (Spares.int hr).bind fun n => .write hf hr (ha rfl) (hnea rfl) _
  case toReal | toNumber | negate =>
    exact (Spares.number hr).bind fun x => .write hf hr (ha rfl) (hnea rfl) _
  case toStr =>
    refine Spares.read.bind fun v => ?_
    exact (Spares.calm hr (Script.calm_textOf v)).bind fun _ => .write hf hr (ha rfl) (hnea rfl) _
  case char => exact Spares.char (i := ⟨.char, a, b, c, place⟩) hf hr (ha rfl) (hnea rfl)
  case strOf =>
    exact (Spares.int hr).bind fun _ => .ite (.write hf hr (ha rfl) (hnea rfl) _) .raise
  case dot =>
    refine Spares.read.bind fun v => Spares.read.bind fun key => ?_
    exact .store hf hr (ha rfl) (hnea rfl) (.calm hr (Script.calm_getMember hcall v key))
  case dotSet =>
    refine Spares.read.bind fun v => Spares.read.bind fun key => Spares.read.bind fun x => ?_
    exact .calm hr (Script.calm_setMember hcall v key x)
  case dotSetVoid =>
    refine Spares.read.bind fun v => Spares.read.bind fun key => ?_
    exact .calm hr (Script.calm_setMember hcall v key .void)
  case delete =>
    refine Spares.read.bind fun v => Spares.read.bind fun key => ?_
    exact .calm hr (Script.calm_removeMember v key)
  case loadConst =>
    exact .store hf hr (ha rfl) (hnea rfl) (.constantValue hf hr (hconst b rfl))
  case copy => exact Spares.copy hf hr hcall (ha rfl) (hnea rfl) _
  case loadVoid | loadTrue | loadFalse => exact Spares.write hf hr (ha rfl) (hnea rfl) _
  case call =>
    refine Spares.read.bind fun callee => (Spares.rangeFrom _ _ _).bind fun args => ?_
    exact .store hf hr (ha rfl) (hnea rfl) (.calm hr (Script.calm_callValue hcall callee args))
  case inc | dec =>
    exact Spares.stepBefore hf hr (ha rfl) (hb rfl) (hnea rfl) (hneb rfl) _
  case postInc | postDec =>
    exact Spares.stepAfter hf hr (ha rfl) (hb rfl) (hnea rfl) (hneb rfl) _
  case makeArray =>
    exact (Spares.rangeFrom _ _ _).bind fun items =>
      .store hf hr (ha rfl) (hnea rfl) (.calm hr (Script.calm_newArray items))
  case makeDict => exact Spares.makeDict hf hr (ha rfl) (hnea rfl)
  case makeFunc => exact Spares.makeFunction hf hr (ha rfl) (hnea rfl)
  case bindClosure => exact Spares.bindClosure hf hr (ha rfl) (hnea rfl)
  case newObject =>
    exact Spares.read.bind fun _ => .store hf hr (ha rfl) (hnea rfl) (.resolveClass _ _)
  case instanceOf => exact Spares.instanceOf hf hr (ha rfl) (hnea rfl)
  case loadGlobal => exact Spares.get_bind fun _ _ => .write hf hr (ha rfl) (hnea rfl) _
  case registerLocal =>
    exact Spares.registerLocal (i := ⟨.registerLocal, a, b, c, place⟩) hf (ha rfl) (hlocal rfl)
      (hname b rfl)
  case captureUpvalue =>
    refine (Spares.name a).bind fun name => .calm hr ?_
    exact .modifyHeap (fun _ _ => Heap.captureUpvalue_graft _ _) fun _ =>
      Heap.keeps_captureUpvalue _ _
  case nop | jump | jumpFalse | jumpTrue | ret | retVoid => exact Spares.pure ()

end Frame

end ScriptEngine
