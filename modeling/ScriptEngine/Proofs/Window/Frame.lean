import ScriptEngine.Proofs.Window.Native

/-!
# Instructions stay in their window

`Frame.Allocated h f` says that the chunk of `f` was built and that the heap `h` has the window
which such a chunk gets. Every heap that `h` leads to still has this window, so a register that the
chunk has room for is read and written there (`contained_read`, `contained_write`). An instruction
is contained if there is room for the registers that it touches (`contained_step`). There is one
case for each operation: it uses no more registers than those that emitting counts.
-/

namespace ScriptEngine

namespace Frame

/-- A frame of a chunk that was built, whose window is in the heap. -/
structure Allocated (h : Heap) (f : Frame) : Prop where
  built : f.chunk.Built
  base : f.base = f.chunk.base
  live : f.window.index < h.windows.size
  size : (h.window f.window).size = f.chunk.windowSize

variable {h : Heap} {call : Invoke} {f : Frame} {i : Instruction} {r : Int}

namespace Allocated

theorem trans {h' : Heap} (hf : f.Allocated h) (hh : h.Leads h') : f.Allocated h' :=
  ⟨hf.built, hf.base, hf.live.trans_le hh.count, (hh.sizes _ hf.live).trans hf.size⟩

/-- Where a register is in the window. -/
theorem index (hf : f.Allocated h) (hr : f.chunk.HasRegister r) :
    0 ≤ (f.base : Int) + r ∧ (f.base : Int) + r < (h.window f.window).size := by
  rw [hf.base, hf.size]
  exact hr

end Allocated

/-! ## Registers -/

theorem contained_slot (hf : f.Allocated h) (hr : f.chunk.HasRegister r) :
    Script.Contained h (f.slot r) fun _ => True := by
  refine Script.Contained.getHeap.bind fun h' hh => .ite (fun _ => .pure trivial) fun hn => ?_
  exact absurd ((hf.trans hh).index hr) hn

theorem contained_read (hf : f.Allocated h) (hr : f.chunk.HasRegister r) :
    Script.Contained h (f.read r) fun _ => True := by
  refine .ite (fun hneg => absurd (hf.index hr).1 hneg.not_ge) fun _ => ?_
  refine Script.Contained.getHeap.bind fun h' hh => ?_
  split
  · exact .pure trivial
  · rename_i hnone
    have hin := (hf.trans hh).index hr
    obtain ⟨v, hv⟩ := Heap.cell?_isSome (c := ⟨f.window, ((f.base : Int) + r).toNat⟩)
      (show ((f.base : Int) + r).toNat < (h'.window f.window).size by omega)
    exact absurd (hv.symm.trans hnone) (by simp)

theorem contained_write (hf : f.Allocated h) (hr : f.chunk.HasRegister r) (v : Value) :
    Script.Contained h (f.write r v) fun _ => True :=
  (contained_slot hf hr).bind fun _ _ => .modifyHeap (Heap.mild_setCell _ v)

theorem contained_number (hf : f.Allocated h) (hr : f.chunk.HasRegister r) :
    Script.Contained h (f.number r) fun _ => True :=
  (contained_read hf hr).bind fun v _ => .toNumber v

theorem contained_int (hf : f.Allocated h) (hr : f.chunk.HasRegister r) :
    Script.Contained h (f.int r) fun _ => True :=
  (contained_read hf hr).bind fun _ _ => .ofExcept fun _ => Script.toInt32_error

theorem contained_rangeFrom (hf : f.Allocated h) (before : Array Value) (first : Int) (count : Nat)
    (hr : ∀ k : Nat, k < count → f.chunk.HasRegister (first + k)) :
    Script.Contained h (f.rangeFrom before first count) fun _ => True := by
  induction count generalizing before first with
  | zero => exact .pure trivial
  | succ count ih =>
    have hfirst : f.chunk.HasRegister first := by simpa using hr 0 (Nat.succ_pos _)
    refine (contained_read hf hfirst).bind fun v _ => ih _ _ fun k hk => ?_
    have hlater := hr (k + 1) (Nat.succ_lt_succ hk)
    rwa [Nat.cast_add, Nat.cast_one, add_comm (k : Int), ← add_assoc] at hlater

theorem contained_range (hf : f.Allocated h) {first behind : Int}
    (hr : ∀ r, first ≤ r → r < behind → f.chunk.HasRegister r) :
    Script.Contained h (f.range first behind) fun _ => True :=
  contained_rangeFrom hf _ _ _ fun k hk => hr _ (by omega) (by omega)

/-! ## Constants -/

/-- Whatever there is at an index: a template among the constants was built. -/
theorem contained_constant (hf : f.Allocated h) (k : Int) :
    Script.Contained h (f.constant k) fun c => ∀ inner, c = .template inner → inner.Built := by
  unfold constant
  split
  · rename_i found hfound
    refine .pure fun inner hinner => hf.built.inner ?_
    subst hinner
    split at hfound
    · exact Array.mem_of_getElem? hfound
    · cases hfound
  · exact .raise rfl

theorem contained_constantValue (hf : f.Allocated h) (k : Int) :
    Script.Contained h (f.constantValue k) fun _ => True := by
  refine (contained_constant hf k).bind fun c hc => ?_
  cases c with
  | value v => exact .pure trivial
  | template chunk =>
    refine .newFunction fun inner hinner => ?_
    cases hinner
    exact hc chunk rfl

theorem contained_name (hf : f.Allocated h) (k : Int) :
    Script.Contained h (f.name k) fun _ => True := by
  refine (contained_constant hf k).bind fun c _ => ?_
  split
  · exact .pure trivial
  · exact .raise rfl
  · exact .raise rfl

/-! ## Operators -/

theorem contained_intOp (hf : f.Allocated h) (ha : f.chunk.HasRegister i.a)
    (hb : f.chunk.HasRegister i.b) (hc : f.chunk.HasRegister i.c) (op : Int32 → Int32 → Int32) :
    Script.Contained h (f.intOp i op) fun _ => True :=
  (contained_int hf hb).bind fun _ _ => (contained_int hf hc).bind fun _ _ =>
    contained_write hf ha _

theorem contained_numberOp (hf : f.Allocated h) (ha : f.chunk.HasRegister i.a)
    (hb : f.chunk.HasRegister i.b) (hc : f.chunk.HasRegister i.c) (op : Number → Number → Number) :
    Script.Contained h (f.numberOp i op) fun _ => True :=
  (contained_number hf hb).bind fun _ _ => (contained_number hf hc).bind fun _ _ =>
    contained_write hf ha _

theorem contained_testOp (hf : f.Allocated h) (ha : f.chunk.HasRegister i.a)
    (hb : f.chunk.HasRegister i.b) (hc : f.chunk.HasRegister i.c) (op : Value → Value → Bool) :
    Script.Contained h (f.testOp i op) fun _ => True :=
  (contained_read hf hb).bind fun _ _ => (contained_read hf hc).bind fun _ _ =>
    contained_write hf ha _

theorem contained_orderOp (hf : f.Allocated h) (ha : f.chunk.HasRegister i.a)
    (hb : f.chunk.HasRegister i.b) (hc : f.chunk.HasRegister i.c) (swapped : Bool)
    (op : Heap → Value → Value → Bool) :
    Script.Contained h (f.orderOp i swapped op) fun _ => True := by
  have hx : f.chunk.HasRegister (if swapped then i.c else i.b) := by split <;> assumption
  have hy : f.chunk.HasRegister (if swapped then i.b else i.c) := by split <;> assumption
  refine (contained_read hf hx).bind fun x _ => (contained_read hf hy).bind fun y _ => ?_
  exact Script.Contained.getHeap.bind fun _ _ => contained_write hf ha _

theorem contained_add (hf : f.Allocated h) (ha : f.chunk.HasRegister i.a)
    (hb : f.chunk.HasRegister i.b) (hc : f.chunk.HasRegister i.c) :
    Script.Contained h (f.add i) fun _ => True := by
  refine (contained_read hf hb).bind fun x _ => (contained_read hf hc).bind fun y _ => ?_
  split
  · exact (Script.Contained.textOf y).bind fun _ _ => contained_write hf ha _
  · refine (Script.Contained.toNumber _).bind fun m _ => ?_
    exact (Script.Contained.toNumber y).bind fun n _ => contained_write hf ha _

theorem contained_intDiv (hf : f.Allocated h) (ha : f.chunk.HasRegister i.a)
    (hb : f.chunk.HasRegister i.b) (hc : f.chunk.HasRegister i.c) :
    Script.Contained h (f.intDiv i) fun _ => True := by
  refine (contained_int hf hc).bind fun divisor _ => .check rfl ?_
  exact (contained_int hf hb).bind fun x _ => contained_write hf ha _

theorem contained_char (hf : f.Allocated h) (ha : f.chunk.HasRegister i.a)
    (hb : f.chunk.HasRegister i.b) : Script.Contained h (f.char i) fun _ => True := by
  refine (contained_read hf hb).bind fun v _ => (Script.Contained.textOf v).bind fun text _ => ?_
  split
  · exact contained_write hf ha _
  · exact .raise rfl

theorem contained_stringOf (hf : f.Allocated h) (ha : f.chunk.HasRegister i.a)
    (hb : f.chunk.HasRegister i.b) : Script.Contained h (f.stringOf i) fun _ => True :=
  (contained_int hf hb).bind fun _ _ => .ite (fun _ => contained_write hf ha _) fun _ =>
    .raise rfl

/-! ## Copies and jumps -/

theorem contained_copy (hf : f.Allocated h) (hcall : call.Contained) {dest source : Int}
    (hd : f.chunk.HasRegister dest) (hs : f.chunk.HasRegister source) :
    Script.Contained h (f.copy call dest source) fun _ => True := by
  refine (contained_read hf hs).bind fun v _ => .ite (fun _ => ?_) fun _ => contained_write hf hd v
  refine (contained_read hf hd).bind fun old _ => ?_
  split
  · exact Script.Contained.getHeap.bind fun _ hh =>
      Script.contained_write hcall (hh.built.property _) v
  · exact contained_write hf hd v

theorem contained_stepBefore (hf : f.Allocated h) (ha : f.chunk.HasRegister i.a)
    (hb : f.chunk.HasRegister i.b) (op : Int32 → Int32) :
    Script.Contained h (f.stepBefore i op) fun _ => True := by
  refine (contained_int hf hb).bind fun n _ => (contained_write hf hb _).bind fun _ _ => ?_
  exact .ite (fun _ => .pure trivial) fun _ => contained_write hf ha _

theorem contained_stepAfter (hf : f.Allocated h) (ha : f.chunk.HasRegister i.a)
    (hb : f.chunk.HasRegister i.b) (op : Int32 → Int32) :
    Script.Contained h (f.stepAfter i op) fun _ => True := by
  refine (contained_read hf hb).bind fun old _ => ?_
  refine (Script.Contained.ofExcept fun _ => Script.toInt32_error).bind fun n _ => ?_
  exact (contained_write hf ha old).bind fun _ _ => contained_write hf hb _

theorem contained_jumpTo (target : Int) : Script.Contained h (jumpTo target) fun _ => True :=
  .ite (fun _ => .pure trivial) fun _ => .raise rfl

theorem contained_jumpIf (hf : f.Allocated h) (ha : f.chunk.HasRegister i.a) (wanted : Bool) :
    Script.Contained h (f.jumpIf i wanted) fun _ => True :=
  (contained_read hf ha).bind fun _ _ => .ite (fun _ => contained_jumpTo _) fun _ => .pure trivial

/-! ## Objects -/

theorem contained_makeDict (hf : f.Allocated h) (ha : f.chunk.HasRegister i.a)
    (hr : ∀ r, i.b ≤ r → r < i.c → f.chunk.HasRegister r) :
    Script.Contained h (f.makeDict i) fun _ => True := by
  refine (contained_range hf hr).bind fun items _ => Script.Contained.getHeap.bind fun _ _ => ?_
  exact (Script.Contained.newDict _).bind fun _ _ => contained_write hf ha _

theorem contained_makeFunction (hf : f.Allocated h) (ha : f.chunk.HasRegister i.a)
    (hr : ∀ r, i.b ≤ r → r < i.c → f.chunk.HasRegister r) :
    Script.Contained h (f.makeFunction i) fun _ => True := by
  refine (contained_read hf ha).bind fun v _ => ?_
  split
  · refine (contained_range hf hr).bind fun defaults _ => Script.Contained.get.bind fun e he => ?_
    refine (Script.Contained.newFunction ?_).bind fun g _ => contained_write hf ha _
    exact he.built.function _
  · exact .raise rfl

theorem contained_bindClosure (hf : f.Allocated h) (ha : f.chunk.HasRegister i.a) :
    Script.Contained h (f.bindClosure i) fun _ => True := by
  refine (contained_read hf ha).bind fun v _ => ?_
  split
  · refine Script.Contained.getHeap.bind fun h' hh => ?_
    refine (Script.Contained.newFunction ?_).bind fun g _ => contained_write hf ha _
    exact hh.built.function _
  · exact .raise rfl

theorem contained_globalClass (name : String) :
    Script.Contained h (globalClass name) fun _ => True := by
  refine Script.Contained.get.bind fun e _ => ?_
  split
  · exact .pure trivial
  · exact .raise rfl

theorem contained_resolveClass (hf : f.Allocated h) (target : Value) (fallback : Int) :
    Script.Contained h (f.resolveClass target fallback) fun _ => True := by
  unfold resolveClass
  split
  · exact .pure trivial
  · exact contained_globalClass _
  · refine .ite (fun _ => ?_) fun _ => .raise rfl
    exact (contained_name hf fallback).bind fun s _ => contained_globalClass s

theorem contained_instanceOf (hf : f.Allocated h) (ha : f.chunk.HasRegister i.a)
    (hb : f.chunk.HasRegister i.b) (hc : f.chunk.HasRegister i.c) :
    Script.Contained h (f.instanceOf i) fun _ => True := by
  refine (contained_read hf hc).bind fun target _ => Script.Contained.getHeap.bind fun _ _ => ?_
  exact (contained_read hf hb).bind fun v _ => contained_write hf ha _

/-! ## Dispatch -/

/-- Instructions that do not jump. -/
theorem contained_perform (hf : f.Allocated h) (hcall : call.Contained)
    (hi : ∀ r, i.Touches r → f.chunk.HasRegister r) :
    Script.Contained h (f.perform call i) fun _ => True := by
  obtain ⟨op, a, b, c, place⟩ := i
  have ha : op.registerOperands.1 = true → f.chunk.HasRegister a := fun hop =>
    hi a (Instruction.touches_a hop)
  have hb : op.registerOperands.2.1 = true → f.chunk.HasRegister b := fun hop =>
    hi b (Instruction.touches_b hop)
  have hc : op.registerOperands.2.2 = true → f.chunk.HasRegister c := fun hop =>
    hi c (Instruction.touches_c hop)
  have hr : op.takesRange = true → ∀ r, b ≤ r → r < c → f.chunk.HasRegister r :=
    fun hop r hge hlt => hi r (.inr ⟨hop, hge, hlt⟩)
  cases op
  case bitAnd | bitOr | bitXor | shl | shr =>
    exact contained_intOp hf (ha rfl) (hb rfl) (hc rfl) _
  case sub | mod | div | mul => exact contained_numberOp hf (ha rfl) (hb rfl) (hc rfl) _
  case add => exact contained_add hf (ha rfl) (hb rfl) (hc rfl)
  case intDiv => exact contained_intDiv hf (ha rfl) (hb rfl) (hc rfl)
  case and =>
    refine (contained_read hf (hb rfl)).bind fun x _ => .ite (fun _ => ?_) fun _ =>
      contained_write hf (ha rfl) _
    exact (contained_read hf (hc rfl)).bind fun y _ => contained_write hf (ha rfl) _
  case or =>
    refine (contained_read hf (hb rfl)).bind fun x _ => .ite (fun _ =>
      contained_write hf (ha rfl) _) fun _ => ?_
    exact (contained_read hf (hc rfl)).bind fun y _ => contained_write hf (ha rfl) _
  case eq | notEq | strictEq | strictNotEq =>
    exact contained_testOp hf (ha rfl) (hb rfl) (hc rfl) _
  case gt | ge | lt | le => exact contained_orderOp hf (ha rfl) (hb rfl) (hc rfl) _ _
  case not | typeOf =>
    exact (contained_read hf (hb rfl)).bind fun v _ => contained_write hf (ha rfl) _
  case bitNot | toInt =>
    exact (contained_int hf (hb rfl)).bind fun n _ => contained_write hf (ha rfl) _
  case toReal | toNumber | negate =>
    exact (contained_number hf (hb rfl)).bind fun x _ => contained_write hf (ha rfl) _
  case toStr =>
    refine (contained_read hf (hb rfl)).bind fun v _ => ?_
    exact (Script.Contained.textOf v).bind fun text _ => contained_write hf (ha rfl) _
  case char => exact contained_char hf (ha rfl) (hb rfl)
  case strOf => exact contained_stringOf hf (ha rfl) (hb rfl)
  case dot =>
    refine (contained_read hf (hb rfl)).bind fun v _ => ?_
    refine (contained_read hf (hc rfl)).bind fun key _ => ?_
    exact (Script.contained_getMember hcall v key).bind fun x _ => contained_write hf (ha rfl) _
  case dotSet =>
    refine (contained_read hf (ha rfl)).bind fun v _ => ?_
    refine (contained_read hf (hb rfl)).bind fun key _ => ?_
    exact (contained_read hf (hc rfl)).bind fun x _ => Script.contained_setMember hcall v key x
  case dotSetVoid =>
    refine (contained_read hf (ha rfl)).bind fun v _ => ?_
    exact (contained_read hf (hb rfl)).bind fun key _ =>
      Script.contained_setMember hcall v key .void
  case delete =>
    refine (contained_read hf (ha rfl)).bind fun v _ => ?_
    exact (contained_read hf (hb rfl)).bind fun key _ => Script.contained_removeMember v key
  case loadConst =>
    exact (contained_constantValue hf b).bind fun v _ => contained_write hf (ha rfl) _
  case copy => exact contained_copy hf hcall (ha rfl) (hb rfl)
  case loadVoid | loadTrue | loadFalse => exact contained_write hf (ha rfl) _
  case call =>
    refine (contained_read hf (ha rfl)).bind fun callee _ => ?_
    refine (contained_range hf (hr rfl)).bind fun args _ => ?_
    exact (Script.contained_callValue hcall callee args).bind fun x _ =>
      contained_write hf (ha rfl) _
  case inc | dec => exact contained_stepBefore hf (ha rfl) (hb rfl) _
  case postInc | postDec => exact contained_stepAfter hf (ha rfl) (hb rfl) _
  case makeArray =>
    refine (contained_range hf (hr rfl)).bind fun items _ => ?_
    exact (Script.Contained.newArray items).bind fun x _ => contained_write hf (ha rfl) _
  case makeDict => exact contained_makeDict hf (ha rfl) (hr rfl)
  case makeFunc => exact contained_makeFunction hf (ha rfl) (hr rfl)
  case bindClosure => exact contained_bindClosure hf (ha rfl)
  case newObject =>
    refine (contained_read hf (hb rfl)).bind fun target _ => ?_
    exact (contained_resolveClass hf target c).bind fun x _ => contained_write hf (ha rfl) _
  case instanceOf => exact contained_instanceOf hf (ha rfl) (hb rfl) (hc rfl)
  case loadGlobal => exact Script.Contained.get.bind fun e _ => contained_write hf (ha rfl) _
  case registerLocal =>
    refine (contained_name hf b).bind fun name _ => ?_
    refine (contained_slot hf (ha rfl)).bind fun index _ => .modifyHeap_same fun h => ?_
    simp only [Heap.registerLocal]
    exact ⟨rfl, rfl, rfl⟩
  case captureUpvalue =>
    exact (contained_name hf a).bind fun name _ => .modifyHeap (Heap.mild_captureUpvalue _ name)
  case nop | jump | jumpFalse | jumpTrue | ret | retVoid => exact .pure trivial

/-- Every instruction that touches only registers that its chunk has room for. -/
theorem contained_step (hf : f.Allocated h) (hcall : call.Contained)
    (hi : ∀ r, i.Touches r → f.chunk.HasRegister r) :
    Script.Contained h (f.step call i) fun _ => True := by
  have ha : i.op.registerOperands.1 = true → f.chunk.HasRegister i.a := fun hop =>
    hi _ (Instruction.touches_a hop)
  unfold step
  split
  · exact contained_jumpTo _
  · rename_i hop
    exact contained_jumpIf hf (ha (by rw [hop]; rfl)) _
  · rename_i hop
    exact contained_jumpIf hf (ha (by rw [hop]; rfl)) _
  · rename_i hop
    exact (contained_read hf (ha (by rw [hop]; rfl))).bind fun _ _ => .pure trivial
  · exact .pure trivial
  · exact (contained_perform hf hcall hi).bind fun _ _ => .pure trivial

end Frame

end ScriptEngine
