import ScriptEngine.Access.Member
import ScriptEngine.Proofs.Tame

/-!
# Access to variables and members is tame

Every way of reading, writing and removing variables and members is tame, provided that calls
are. The one place where a fault of the machine could arise is a write to the register of a
variable, and a guarded heap has only registers inside their windows.
-/

namespace ScriptEngine

variable {ρ : Option Region} {call : Invoke}

/-! ## Properties -/

theorem Property.Compiled.bind {p : Property} (hp : p.Compiled) (receiver : Value) :
    (p.bind receiver).Compiled := by
  refine ⟨fun f hf => ?_, fun f hf => ?_⟩
  · obtain ⟨g, hg, rfl⟩ := Option.map_eq_some_iff.1 hf
    exact hp.getter g hg
  · obtain ⟨g, hg, rfl⟩ := Option.map_eq_some_iff.1 hf
    exact hp.setter g hg

namespace Script

theorem calm_read (hcall : call.Calm ρ) {p : Property} (hp : p.Compiled) :
    Calm ρ (p.read call) := by
  unfold Property.read
  split
  · exact hcall _ _ (hp.getter _ ‹_›)
  · exact .raise rfl

theorem calm_write (hcall : call.Calm ρ) {p : Property} (hp : p.Compiled) (v : Value) :
    Calm ρ (p.write call v) := by
  unfold Property.write
  split
  · exact (hcall _ _ (hp.setter _ ‹_›)).bind fun _ => .pure _
  · exact .raise rfl

theorem calm_readThrough (hcall : call.Calm ρ) (v : Value) : Calm ρ (readThrough call v) := by
  unfold readThrough
  split
  · exact .ofHeap (fun _ _ _ => rfl) fun h hg => calm_read hcall (hg.property _)
  · exact .pure _

theorem calm_readBound (hcall : call.Calm ρ) (r : PropertyRef) (receiver : Value) :
    Calm ρ (readBound call r receiver) :=
  .ofHeap (fun _ _ _ => rfl) fun _ hg => calm_read hcall ((hg.property r).bind receiver)

theorem calm_writeBound (hcall : call.Calm ρ) (r : PropertyRef) (receiver v : Value) :
    Calm ρ (writeBound call r receiver v) :=
  .ofHeap (fun _ _ _ => rfl) fun _ hg => calm_write hcall ((hg.property r).bind receiver) v

theorem calm_bindFunction (r : FunctionRef) (receiver : Value) :
    Calm ρ (bindFunction r receiver) :=
  .ofHeap (fun _ _ _ => rfl) fun _ hg => calm_newFunction (hg.function r)

/-! ## Variables -/

theorem calm_getVariable (hcall : call.Calm ρ) (s : ScopeRef) (name : String) :
    Calm ρ (getVariable call s name) := by
  rw [getVariable_eq]
  refine .ofHeap (fun h t hg => ?_) fun h _ => ?_
  · simp only [Heap.bound?_graft hg]
  · split
    · exact calm_readThrough hcall _
    · exact .pure _

/-- A register that can be used is written without a fault. -/
theorem tame_writeCell (hcall : call.Calm ρ) {c : Cell} (hc : c.Free ρ) (v : Value) :
    Tame ρ (fun e => c.index < (e.heap.window c.window).size) (writeCell call c v)
      fun _ _ => True := by
  refine .getHeap_bind (fun h t _ => by simp only [Heap.cell?_graft hc]) fun h hg => ?_
  split
  · refine Calm.tame (.ofHeap (fun _ _ _ => rfl) fun h hg => ?_)
    exact calm_write hcall (hg.property _) v
  · refine Calm.tame (.modifyHeap (fun h t => Heap.setCell_graft hc v) fun h => ?_)
    exact Heap.keeps_setCell c v
  · rename_i hnone
    rintro e he ⟨hlt, rfl⟩
    obtain ⟨w, hw⟩ := Heap.cell?_isSome hlt
    rw [hw] at hnone
    cases hnone

theorem tame_writePlace (hcall : call.Calm ρ) (s : ScopeRef) (name : String) (v : Value)
    (p : Place) :
    Tame ρ (fun e => e.heap.place? s name = some p) (writePlace call name v p)
      fun _ _ => True := by
  rcases p with u | c
  · refine Calm.tame (.ofHeap (fun _ _ _ => rfl) fun h hg => ?_)
    split
    · exact .ofHeap (fun _ _ _ => rfl) fun h hg => calm_write hcall (hg.property _) v
    · exact .modifyHeap (fun _ _ => rfl) fun h => Heap.keeps_setVariable u name v
  · intro e hg hp
    obtain ⟨hlt, hout⟩ := hg.place hp
    exact tame_writeCell hcall hout.free v e hg hlt

theorem calm_setVariable (hcall : call.Calm ρ) (s : ScopeRef) (name : String) (v : Value) :
    Calm ρ (setVariable call s name v) := by
  rw [setVariable_eq]
  refine .getHeap_bind (fun h t _ => ?_) fun h hg => ?_
  · simp only [Heap.place?_graft, Heap.outermost_graft]
    rfl
  · split
    · rename_i p hp
      refine (tame_writePlace hcall s name v p).consequence (fun e he => ?_) fun _ _ h => h
      rw [he.2]
      exact hp
    · refine .ite (fun _ => .raise rfl) fun _ => Calm.tame (.modifyHeap (fun _ _ => rfl) fun h => ?_)
      exact Heap.keeps_setVariable _ name v

theorem calm_removeVariable (s : ScopeRef) (name : String) : Calm ρ (removeVariable s name) := by
  rw [removeVariable_eq]
  refine .ofHeap (fun h t _ => by simp only [Heap.place?_graft]) fun h hg => ?_
  split
  · exact .modifyHeap (fun _ _ => rfl) fun h => Heap.keeps_eraseVariable _ name
  · exact .raise rfl
  · exact .pure _

/-! ## Classes -/

theorem calm_getField (hcall : call.Calm ρ) (c : ClassRef) (name : String) :
    Calm ρ (getField call c name) := by
  refine .ofHeap (fun h t _ => ?_) fun h _ => ?_
  · simp only [Heap.ownMember?_graft, Heap.inherited?_graft, Heap.classObject_graft]
  · split
    · exact calm_readBound hcall _ _
    · exact .pure _
    · split
      · exact calm_bindFunction _ _
      · exact calm_readBound hcall _ _
      · exact .pure _
      · exact .raise rfl

theorem calm_setField (hcall : call.Calm ρ) (c : ClassRef) (name : String) (v : Value) :
    Calm ρ (setField call c name v) := by
  refine .ofHeap (fun h t _ => ?_) fun h _ => ?_
  · simp only [Heap.ownMember?_graft, Heap.inherited?_graft]
  · split
    · exact calm_writeBound hcall _ _ v
    · exact .modifyHeap_same (fun _ _ => rfl) fun _ => ⟨rfl, rfl, rfl, rfl⟩

theorem calm_construct (args : Array Value) (k : HostConstructor) : Calm ρ (construct args k) := by
  cases k with
  | counter =>
    simp only [construct]
    split
    · exact (calm_toInt _).bind fun _ => .pure _
    · exact .pure _
  | label => exact (calm_textOf _).bind fun _ => .pure _
  | refuse => exact .raise rfl

theorem calm_instantiate {construct : ClassRef → HostConstructor → Script Payload}
    (hconstruct : ∀ d made, Calm ρ (construct d made)) (c : ClassRef) :
    Calm ρ (instantiate construct c) := by
  refine .ofHeap (fun h t _ => rfl) fun h _ => ?_
  have hrest : Calm ρ (do
      let payload ← (h.classObject (h.definingClass c)).constructor.mapM
        (construct (h.definingClass c))
      return Value.classObj (← onHeap (·.newInstance (h.definingClass c) payload))) := by
    refine Calm.bind ?_ fun payload => Calm.bind ?_ fun _ => .pure _
    · cases (h.classObject (h.definingClass c)).constructor with
      | none => exact .pure _
      | some made => exact (hconstruct _ made).map
    · exact .onHeap (fun _ _ _ => Heap.newInstance_graft _ _) fun _ =>
        Heap.keeps_of_same rfl rfl rfl rfl
  exact .ite hrest ((Calm.raise rfl).bind fun _ => hrest)

theorem calm_payloadOf (v : Value) : Calm ρ (payloadOf v) := by
  unfold payloadOf
  split
  · refine .ofHeap (fun _ _ _ => rfl) fun h _ => ?_
    dsimp only
    split
    · exact .pure _
    · exact .raise rfl
  · exact .raise rfl

theorem calm_classNameOf (v : Value) : Calm ρ (classNameOf v) := by
  unfold classNameOf
  split
  · exact .ofHeap (fun _ _ _ => rfl) fun _ _ => .pure _
  · exact .pure _

theorem calm_counterOf (v : Value) : Calm ρ (counterOf v) := by
  refine (calm_payloadOf v).bind fun payload => ?_
  split
  · exact .pure _
  · exact (calm_classNameOf v).bind fun _ => .raise rfl

theorem calm_labelOf (v : Value) : Calm ρ (labelOf v) := by
  refine (calm_payloadOf v).bind fun payload => ?_
  split
  · exact .pure _
  · exact (calm_classNameOf v).bind fun _ => .raise rfl

theorem calm_setCounter (v : Value) (n : Int) : Calm ρ (setCounter v n) := by
  unfold setCounter
  split
  · exact .modifyHeap_same (fun _ _ => rfl) fun _ => ⟨rfl, rfl, rfl, rfl⟩
  · exact .pure _

theorem calm_callValue (hcall : call.Calm ρ) (callee : Value) (args : Array Value) :
    Calm ρ (callValue call callee args) := by
  unfold callValue
  split
  · exact .ofHeap (fun _ _ _ => rfl) fun _ hg => hcall _ _ (hg.function _)
  · exact hcall _ _ nofun
  · exact .raise rfl

end Script

/-! ## Members -/

@[simp] theorem Heap.keyOf_graft {h : Heap} {t : Nat → Value} (v : Value) :
    (h.graft ρ t).keyOf v = h.keyOf v := by
  cases v <;> simp only [keyOf, text_graft]

namespace Script

theorem calm_getItem (r : ArrayRef) (i : Int) : Calm ρ (getItem r i) :=
  .ofHeap (fun _ _ _ => rfl) fun _ _ => .pure _

theorem writeIndex_error {i : Int} {length cap : Nat} {cause : RuntimeFault}
    (h : writeIndex i length cap = .error cause) : cause.isInternal = false := by
  simp only [writeIndex] at h
  split_ifs at h <;> cases h <;> rfl

theorem lengthOf_error {x : Number} {cap : Nat} {cause : RuntimeFault}
    (h : lengthOf x cap = .error cause) : cause.isInternal = false := by
  unfold lengthOf at h
  split at h <;> cases h
  rfl

theorem calm_modifyArray (r : ArrayRef) (f : Array Value → Array Value) :
    Calm ρ (modifyHeap (·.modifyArray r f)) :=
  .modifyHeap_same (fun _ _ => rfl) fun _ => ⟨rfl, rfl, rfl, rfl⟩

theorem calm_modifyDict (r : DictRef) (f : Dict → Dict) :
    Calm ρ (modifyHeap (·.modifyDict r f)) :=
  .modifyHeap_same (fun _ _ => rfl) fun _ => ⟨rfl, rfl, rfl, rfl⟩

theorem calm_setItem (r : ArrayRef) (i : Int) (v : Value) : Calm ρ (setItem r i v) := by
  refine .get_bind (fun _ _ => rfl) fun e => ?_
  exact (calm_ofExcept fun _ => writeIndex_error).bind fun _ => calm_modifyArray r _

theorem calm_setLength (r : ArrayRef) (x : Number) : Calm ρ (setLength r x) := by
  refine .get_bind (fun _ _ => rfl) fun e => ?_
  exact (calm_ofExcept fun _ => lengthOf_error).bind fun _ => calm_modifyArray r _

theorem calm_getCharacter (s : String) (i : Int) : Calm ρ (getCharacter s i) := by
  unfold getCharacter
  split
  · exact .pure _
  · exact .raise rfl

theorem calm_prototype? (v : Value) : Calm ρ (prototype? v) := by
  refine .get_bind (fun _ _ => rfl) fun e => ?_
  split <;> exact .pure _

theorem calm_prototypeMember? (v : Value) (name : String) :
    Calm ρ (prototypeMember? v name) := by
  refine .ofHeap (fun h t _ => ?_) fun h _ => (calm_prototype? v).bind fun _ => .pure _
  simp only [Heap.member?_graft]

theorem calm_boundMember? (hcall : call.Calm ρ) (v : Value) (name : String) :
    Calm ρ (boundMember? call v name) := by
  refine (calm_prototypeMember? v name).bind fun found => ?_
  split
  · exact (calm_bindFunction _ v).map
  · exact (calm_readBound hcall _ v).map
  · exact .pure _

theorem calm_getNamed (hcall : call.Calm ρ) (v : Value) (name : String) :
    Calm ρ (getNamed call v name) := by
  refine (calm_boundMember? hcall v name).bind fun found => ?_
  split
  · exact .pure _
  · split
    · exact calm_getItem _ _
    · exact calm_getCharacter _ _
    · exact .raise rfl

theorem calm_getEntry (hcall : call.Calm ρ) (r : DictRef) (name : String) :
    Calm ρ (getEntry call r name) := by
  refine .ofHeap (fun _ _ _ => rfl) fun h _ => .ite (.pure _) ?_
  split
  · exact .pure _
  · exact (calm_boundMember? hcall _ name).bind fun _ => .pure _

theorem calm_setNamed (hcall : call.Calm ρ) (v : Value) (name : String) (x : Value) :
    Calm ρ (setNamed call v name x) := by
  refine (calm_prototypeMember? v name).bind fun found => ?_
  split
  · exact calm_writeBound hcall _ v x
  · exact .raise rfl

theorem calm_getMember (hcall : call.Calm ρ) (v key : Value) : Calm ρ (getMember call v key) := by
  refine .ofHeap (fun h t _ => by simp only [Heap.keyOf_graft]) fun h _ => ?_
  dsimp only
  split
  · exact calm_getItem _ _
  · exact .ite (.ofHeap (fun _ _ _ => rfl) fun _ _ => .pure _) (calm_getNamed hcall _ _)
  · exact calm_getEntry hcall _ _
  · exact calm_getCharacter _ _
  · exact calm_getNamed hcall _ _
  · exact calm_getNamed hcall _ _
  · exact .raise rfl
  · exact calm_getVariable hcall _ _
  · exact calm_getField hcall _ _
  · exact .raise rfl

theorem calm_setMember (hcall : call.Calm ρ) (v key x : Value) :
    Calm ρ (setMember call v key x) := by
  refine .ofHeap (fun h t _ => by simp only [Heap.keyOf_graft]) fun h _ => ?_
  dsimp only
  split
  · exact calm_modifyDict _ _
  · split
    · exact calm_setItem _ _ x
    · exact .ite ((calm_toNumber x).bind fun _ => calm_setLength _ _) (calm_setNamed hcall _ _ x)
  · exact calm_setNamed hcall _ _ x
  · exact calm_setNamed hcall _ _ x
  · exact calm_setVariable hcall _ _ x
  · exact calm_setField hcall _ _ x
  · exact .raise rfl

theorem calm_removeMember (v key : Value) : Calm ρ (removeMember v key) := by
  refine .ofHeap (fun h t _ => by simp only [Heap.keyOf_graft]; rfl) fun h _ => ?_
  dsimp only
  split
  · exact calm_modifyDict _ _
  · split
    · split
      · exact calm_modifyArray _ _
      · exact .pure _
    · exact .raise rfl
  · exact calm_removeVariable _ _
  · exact .modifyHeap_same (fun _ _ => rfl) fun _ => ⟨rfl, rfl, rfl, rfl⟩
  · exact .raise rfl

end Script

end ScriptEngine
