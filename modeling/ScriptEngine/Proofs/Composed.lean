import ScriptEngine.Machine
import ScriptEngine.Proofs.Tame

/-!
# Operations composed of primitive ones

What the machine and the native functions do is written for any way of calling functions, an
`Invoke`. Such an operation is *composed*, if it is put together from a few primitive ones: it gives
a result, throws an error of its own, which has no frames in its trace yet (`Failure.Fresh`), reads
the engine, changes the heap, logs a line, or calls a function.

So nothing else of the engine is changed but by the calls, and no error is caught: what holds of the
primitive operations and lasts when operations are put one behind the other holds of all operations,
by induction on `Composed`. This module goes through the access of variables and members; natives
and instructions follow in the module that uses this one.

What a host adds to the engine need not be composed. A *closed* kind of operations has the composed
ones in it and what is put together from operations of the kind (`Closed`), so it has all native
functions in it, if what the host adds is of this kind.
-/

namespace ScriptEngine

/-- An error that has not left a frame yet: one of a run has no position, one of a text has the
position where it was found. -/
def Failure.Fresh : Failure → Prop
  | .error e =>
    (∃ cause, e = .runtime cause) ∨ (∀ cause, e.fault ≠ .runtime cause) ∧ ∃ place, e.trace = [place]
  | .exhausted => True

namespace Script

/-- An operation that is put together from primitive ones; see the head of the module. -/
inductive Composed : {α : Type} → (Invoke → Script α) → Prop where
  | pure {α : Type} (a : α) : Composed fun _ => (pure a : Script α)
  | throw {α : Type} {x : Failure} (hx : x.Fresh) : Composed fun _ => (throw x : Script α)
  | get : Composed fun _ => (get : Script Engine)
  | onHeap {α : Type} (f : Heap → α × Heap) : Composed fun _ => onHeap f
  | note (line : String) :
      Composed fun _ => (modify fun e => { e with log := e.log.push line } : Script Unit)
  | invoke (f : Function) (args : Array Value) : Composed fun call => call f args
  | bind {α β : Type} {m : Invoke → Script α} {k : α → Invoke → Script β} (hm : Composed m)
      (hk : ∀ a, Composed (k a)) : Composed fun call => m call >>= fun a => k a call

/-- A kind of operations with the composed ones in it, in which operations can be put one behind the
other. -/
structure Closed (P : ∀ {α : Type}, (Invoke → Script α) → Prop) : Prop where
  composed : ∀ {α : Type} {m : Invoke → Script α}, Composed m → P m
  bind : ∀ {α β : Type} {m : Invoke → Script α} {k : α → Invoke → Script β}, P m →
    (∀ a, P (k a)) → P fun call => m call >>= fun a => k a call

theorem closed_composed : Closed Composed :=
  ⟨fun hm => hm, .bind⟩

theorem Closed.ite {P : ∀ {α : Type}, (Invoke → Script α) → Prop} (_ : Closed P) {α : Type}
    {c : Prop} [Decidable c] {m₁ m₂ : Invoke → Script α} (h₁ : P m₁) (h₂ : P m₂) :
    P fun call => if c then m₁ call else m₂ call := by
  by_cases hc : c
  · simpa only [if_pos hc] using h₁
  · simpa only [if_neg hc] using h₂

variable {α β : Type}

namespace Composed

variable {m : Invoke → Script α}

theorem raise (cause : RuntimeFault) : Composed fun _ => (raise cause : Script α) :=
  throw (.inl ⟨cause, rfl⟩)

theorem map {f : α → β} (hm : Composed m) : Composed fun call => f <$> m call :=
  hm.bind fun a => pure (f a)

theorem ite {c : Prop} [Decidable c] {m₁ m₂ : Invoke → Script α} (h₁ : Composed m₁)
    (h₂ : Composed m₂) : Composed fun call => if c then m₁ call else m₂ call :=
  closed_composed.ite h₁ h₂

/-- A check in front of an operation. -/
theorem check {c : Prop} [Decidable c] {cause : RuntimeFault} (hm : Composed m) :
    Composed fun call => if c then (Script.raise cause : Script β) >>= fun _ => m call else m call :=
  ite ((raise cause).bind fun _ => hm) hm

/-- Reading the heap. -/
theorem getHeap : Composed fun _ => getHeap :=
  get.bind fun e => pure e.heap

theorem modifyHeap (f : Heap → Heap) : Composed fun _ => modifyHeap f :=
  onHeap fun h => ((), f h)

theorem newArray (items : Array Value) : Composed fun _ => newArray items :=
  (onHeap _).bind fun r => pure (Value.array r)

theorem newDict (entries : Dict) : Composed fun _ => newDict entries :=
  (onHeap _).bind fun r => pure (Value.dict r)

theorem newFunction (f : Function) : Composed fun _ => newFunction f :=
  (onHeap _).bind fun r => pure (Value.function r)

theorem newProperty (p : Property) : Composed fun _ => newProperty p :=
  (onHeap _).bind fun r => pure (Value.property r)

theorem textOf (v : Value) : Composed fun _ => textOf v :=
  getHeap.bind fun h => pure (h.text v)

theorem ofExcept (x : Except RuntimeFault α) : Composed fun _ => ofExcept x := by
  cases x with
  | error cause => exact raise cause
  | ok a => exact pure a

theorem toNumber (v : Value) : Composed fun _ => toNumber v :=
  ofExcept _

theorem toInt (v : Value) : Composed fun _ => toInt v :=
  (ofExcept _).bind fun _ => pure _

theorem mapM {ι : Type} {g : ι → Invoke → Script α} (hg : ∀ i, Composed (g i)) (items : List ι) :
    Composed fun call => items.mapM fun i => g i call := by
  induction items with
  | nil =>
    simp only [List.mapM_nil]
    exact pure _
  | cons i items ih =>
    simp only [List.mapM_cons]
    exact (hg i).bind fun _ => ih.bind fun _ => pure _

theorem array_mapM {ι : Type} {g : ι → Invoke → Script α} (hg : ∀ i, Composed (g i))
    (items : Array ι) : Composed fun call => items.mapM fun i => g i call := by
  simp only [Array.mapM_eq_mapM_toList]
  exact (mapM hg _).map

end Composed

/-! ## Properties -/

theorem composed_read (p : Property) : Composed fun call => p.read call := by
  unfold Property.read
  cases p.getter with
  | none => exact .raise _
  | some f => exact .invoke f _

theorem composed_write (p : Property) (v : Value) : Composed fun call => p.write call v := by
  unfold Property.write
  cases p.setter with
  | none => exact .raise _
  | some f => exact (Composed.invoke f _).map

theorem composed_readThrough (v : Value) : Composed fun call => readThrough call v := by
  cases v with
  | property r => exact Composed.getHeap.bind fun h => composed_read _
  | _ => exact .pure _

theorem composed_readBound (r : PropertyRef) (receiver : Value) :
    Composed fun call => readBound call r receiver :=
  Composed.getHeap.bind fun _ => composed_read _

theorem composed_writeBound (r : PropertyRef) (receiver v : Value) :
    Composed fun call => writeBound call r receiver v :=
  Composed.getHeap.bind fun _ => composed_write _ v

theorem composed_bindFunction (r : FunctionRef) (receiver : Value) :
    Composed fun _ => bindFunction r receiver :=
  Composed.getHeap.bind fun _ => .newFunction _

/-! ## Variables -/

theorem composed_getVariable (s : ScopeRef) (name : String) :
    Composed fun call => getVariable call s name := by
  simp only [getVariable_eq]
  refine Composed.getHeap.bind fun h => ?_
  cases h.bound? s name with
  | none => exact .pure _
  | some v => exact composed_readThrough v

theorem composed_writeCell (cell : Cell) (v : Value) :
    Composed fun call => writeCell call cell v := by
  refine Composed.getHeap.bind fun h => ?_
  rcases h.cell? cell with _ | old
  · exact .raise _
  · cases old with
    | property r => exact Composed.getHeap.bind fun _ => composed_write _ v
    | _ => exact .modifyHeap _

theorem composed_writePlace (name : String) (v : Value) (place : Place) :
    Composed fun call => writePlace call name v place := by
  cases place with
  | «variable» s =>
    refine Composed.getHeap.bind fun h => ?_
    cases h.atPlace name (.variable s) with
    | property r => exact Composed.getHeap.bind fun _ => composed_write _ v
    | _ => exact .modifyHeap _
  | register cell => exact composed_writeCell cell v

theorem composed_setVariable (s : ScopeRef) (name : String) (v : Value) :
    Composed fun call => setVariable call s name v := by
  simp only [setVariable_eq]
  refine Composed.getHeap.bind fun h => ?_
  cases h.place? s name with
  | none => exact .ite (.raise _) (.modifyHeap _)
  | some place => exact composed_writePlace name v place

theorem composed_removeVariable (s : ScopeRef) (name : String) :
    Composed fun _ => removeVariable s name := by
  simp only [removeVariable_eq]
  refine Composed.getHeap.bind fun h => ?_
  rcases h.place? s name with _ | _ | _
  · exact .pure _
  · exact .modifyHeap _
  · exact .raise _

/-! ## Objects -/

theorem composed_getField (c : ClassRef) (name : String) :
    Composed fun call => getField call c name := by
  refine Composed.getHeap.bind fun h => ?_
  rcases h.ownMember? name c with _ | v
  · rcases h.inherited? c name with _ | v
    · exact .raise _
    · cases v with
      | function r => exact composed_bindFunction r _
      | property r => exact composed_readBound r _
      | _ => exact .pure _
  · cases v with
    | property r => exact composed_readBound r _
    | _ => exact .pure _

theorem composed_setField (c : ClassRef) (name : String) (v : Value) :
    Composed fun call => setField call c name v := by
  refine Composed.getHeap.bind fun h => ?_
  rcases (h.ownMember? name c).or (h.inherited? c name) with _ | old
  · exact .modifyHeap _
  · cases old with
    | property r => exact composed_writeBound r _ v
    | _ => exact .modifyHeap _

theorem composed_construct (args : Array Value) (made : HostConstructor) :
    Composed fun _ => construct args made := by
  cases made with
  | counter =>
    unfold construct
    cases args[0]? with
    | none => exact .pure _
    | some v => exact (Composed.toInt v).bind fun _ => .pure _
  | label => exact (Composed.textOf _).bind fun _ => .pure _
  | refuse => exact .raise _

/-- An instance is made by an operation of the kind that the constructors are of. -/
theorem Closed.instantiate {P : ∀ {α : Type}, (Invoke → Script α) → Prop} (hP : Closed P)
    {construct : ClassRef → HostConstructor → Invoke → Script Payload}
    (h : ∀ d made, P (construct d made)) (c : ClassRef) :
    P fun call => Script.instantiate (fun d made => construct d made call) c := by
  refine hP.bind (hP.composed .getHeap) fun heap => ?_
  have hmake : P fun call => do
      let payload ← (heap.classObject (heap.definingClass c)).constructor.mapM fun made =>
        construct (heap.definingClass c) made call
      return Value.classObj (← onHeap (·.newInstance (heap.definingClass c) payload)) := by
    refine hP.bind ?_ fun payload => hP.composed ((Composed.onHeap _).bind fun _ => .pure _)
    cases (heap.classObject (heap.definingClass c)).constructor with
    | none => exact hP.composed (.pure none)
    | some made => exact hP.bind (h _ made) fun payload => hP.composed (.pure (some payload))
  exact hP.ite hmake (hP.bind (hP.composed (.raise _)) fun _ => hmake)

theorem composed_payloadOf (v : Value) : Composed fun _ => payloadOf v := by
  cases v with
  | classObj c =>
    refine Composed.getHeap.bind fun h => ?_
    dsimp only
    cases (h.classObject c).payload with
    | none => exact .raise _
    | some payload => exact .pure _
  | _ => exact .raise _

theorem composed_classNameOf (v : Value) : Composed fun _ => classNameOf v := by
  cases v with
  | classObj c => exact Composed.getHeap.bind fun _ => .pure _
  | _ => exact .pure _

theorem composed_counterOf (v : Value) : Composed fun _ => counterOf v := by
  refine (composed_payloadOf v).bind fun payload => ?_
  cases payload with
  | counter n => exact .pure _
  | label text => exact (composed_classNameOf v).bind fun _ => .raise _

theorem composed_labelOf (v : Value) : Composed fun _ => labelOf v := by
  refine (composed_payloadOf v).bind fun payload => ?_
  cases payload with
  | counter n => exact (composed_classNameOf v).bind fun _ => .raise _
  | label text => exact .pure _

theorem composed_setCounter (v : Value) (n : Int) : Composed fun _ => setCounter v n := by
  unfold setCounter
  cases v with
  | classObj c => exact .modifyHeap _
  | _ => exact .pure _

theorem composed_callValue (callee : Value) (args : Array Value) :
    Composed fun call => callValue call callee args := by
  cases callee with
  | function r => exact Composed.getHeap.bind fun h => .invoke _ args
  | classObj c => exact .invoke _ args
  | _ => exact .raise _

/-! ## Members -/

theorem composed_getItem (r : ArrayRef) (i : Int) : Composed fun _ => getItem r i :=
  Composed.getHeap.bind fun _ => .pure _

theorem composed_setItem (r : ArrayRef) (i : Int) (v : Value) : Composed fun _ => setItem r i v :=
  Composed.get.bind fun _ => (Composed.ofExcept _).bind fun _ => .modifyHeap _

theorem composed_setLength (r : ArrayRef) (x : Number) : Composed fun _ => setLength r x :=
  Composed.get.bind fun _ => (Composed.ofExcept _).bind fun _ => .modifyHeap _

theorem composed_getCharacter (s : String) (i : Int) : Composed fun _ => getCharacter s i := by
  unfold getCharacter
  cases (resolveIndex i s.length).bind (Text.charAt? s) with
  | none => exact .raise _
  | some c => exact .pure _

theorem composed_prototype? (v : Value) : Composed fun _ => prototype? v := by
  refine Composed.get.bind fun e => ?_
  cases v <;> exact .pure _

theorem composed_prototypeMember? (v : Value) (name : String) :
    Composed fun _ => prototypeMember? v name :=
  Composed.getHeap.bind fun _ => (composed_prototype? v).bind fun _ => .pure _

theorem composed_boundMember? (v : Value) (name : String) :
    Composed fun call => boundMember? call v name := by
  refine (composed_prototypeMember? v name).bind fun found => ?_
  rcases found with _ | w
  · exact .pure _
  · cases w with
    | function r => exact (composed_bindFunction r v).map
    | property r => exact (composed_readBound r v).map
    | _ => exact .pure _

theorem composed_getNamed (v : Value) (name : String) :
    Composed fun call => getNamed call v name := by
  refine (composed_boundMember? v name).bind fun found => ?_
  cases found with
  | some w => exact .pure _
  | none =>
    cases (Key.name name).toIndex? with
    | none => cases v <;> exact .raise _
    | some i =>
      cases v with
      | array r => exact composed_getItem r i
      | str s => exact composed_getCharacter s i
      | _ => exact .raise _

theorem composed_getEntry (r : DictRef) (name : String) :
    Composed fun call => getEntry call r name := by
  refine Composed.getHeap.bind fun h => .ite (.pure _) ?_
  cases (h.dict r)[name]? with
  | some v => exact .pure _
  | none => exact (composed_boundMember? _ name).bind fun _ => .pure _

theorem composed_setNamed (v : Value) (name : String) (x : Value) :
    Composed fun call => setNamed call v name x := by
  refine (composed_prototypeMember? v name).bind fun found => ?_
  rcases found with _ | w
  · exact .raise _
  · cases w with
    | property r => exact composed_writeBound r v x
    | _ => exact .raise _

theorem composed_getMember (v key : Value) : Composed fun call => getMember call v key := by
  refine Composed.getHeap.bind fun h => ?_
  rcases h.keyOf key with i | s
  · cases v with
    | array r => exact composed_getItem r i
    | dict r => exact composed_getEntry r _
    | str s => exact composed_getCharacter s i
    | number x => exact .raise _
    | scope s => exact composed_getVariable s _
    | classObj c => exact composed_getField c _
    | _ => exact .raise _
  · cases v with
    | array r => exact .ite (Composed.getHeap.bind fun _ => .pure _) (composed_getNamed _ s)
    | dict r => exact composed_getEntry r _
    | str _ => exact composed_getNamed _ s
    | number x => exact composed_getNamed _ s
    | scope s => exact composed_getVariable s _
    | classObj c => exact composed_getField c _
    | _ => exact .raise _

theorem composed_setMember (v key x : Value) : Composed fun call => setMember call v key x := by
  refine Composed.getHeap.bind fun h => ?_
  cases v with
  | dict r => exact .modifyHeap _
  | array r =>
    dsimp only
    cases (h.keyOf key).toIndex? with
    | some i => exact composed_setItem r i x
    | none =>
      exact .ite ((Composed.toNumber x).bind fun _ => composed_setLength r _) (composed_setNamed _ _ x)
  | number n => exact composed_setNamed _ _ x
  | str s => exact composed_setNamed _ _ x
  | scope s => exact composed_setVariable s _ x
  | classObj c => exact composed_setField c _ x
  | _ => exact .raise _

theorem composed_removeMember (v key : Value) : Composed fun _ => removeMember v key := by
  refine Composed.getHeap.bind fun h => ?_
  cases v with
  | dict r => exact .modifyHeap _
  | array r =>
    dsimp only
    cases (h.keyOf key).toIndex? with
    | some i =>
      dsimp only
      cases resolveIndex i (h.array r).size with
      | some index => exact .modifyHeap _
      | none => exact .pure _
    | none => exact .raise _
  | scope s => exact composed_removeVariable s _
  | classObj c => exact .modifyHeap _
  | _ => exact .raise _

end Script

end ScriptEngine
