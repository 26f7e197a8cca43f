import ScriptEngine.Proofs.Arrays

/-!
# Keys that spell whole numbers

**Theorem (`spelled_keys_select_by_index`).** On arrays and strings a name that spells a whole
number writes and removes what the number itself does, always. It also reads the same, and reads
back what was written with it, unless the class that gives the sequence its members has a member
of that very name. A script can put one there, and then reads, which look into the class before
they read the name as a number, give that member, while writes and removals still go to the item.
-/

namespace ScriptEngine

variable {call : Invoke} {e : Engine} {c : ClassRef} {x key v : Value} {i : Int} {s : String}
  {r : ArrayRef}

/-- The class that gives an array or a string its members. -/
def Engine.sequenceClass? (e : Engine) : Value → Option ClassRef
  | .array _ => some e.arrayClass
  | .str _ => some e.stringClass
  | _ => none

/-- What an index reads in an array or a string. -/
def Script.getAt : Value → Int → Script Value
  | .array r, i => getItem r i
  | .str t, i => getCharacter t i
  | _, _ => return .void

/-- The class has no member of the name that a key is. -/
def Engine.Unshadowed (e : Engine) (c : ClassRef) (key : Value) : Prop :=
  ∀ s, e.heap.keyOf key = .name s → e.heap.member? c s = none

theorem ne_length_of_toIndex? (hs : (Key.name s).toIndex? = some i) : s ≠ "length" := by
  rintro rfl
  have hnone : (Key.name "length").toIndex? = none := by decide +kernel
  rw [hnone] at hs
  cases hs

namespace Script

theorem prototypeMember?_apply (hx : e.sequenceClass? x = some c) (s : String) :
    prototypeMember? x s e = .ok (e.heap.member? c s) e := by
  cases x <;> cases hx <;> rfl

/-- A name that spells a whole number reads as one if the class has no member of that name. -/
theorem getNamed_unshadowed (hx : e.sequenceClass? x = some c)
    (hs : (Key.name s).toIndex? = some i) (hc : e.heap.member? c s = none) :
    getNamed call x s e = getAt x i e := by
  have hbound : boundMember? call x s e = .ok none e := by
    unfold boundMember?
    rw [bind_apply, prototypeMember?_apply hx, hc]
    rfl
  unfold getNamed
  rw [bind_apply, hbound]
  dsimp only
  rw [hs]
  cases x <;> cases hx <;> rfl

/-- A member of the class is read first. -/
theorem getNamed_shadowed (hx : e.sequenceClass? x = some c) {w : Value}
    (hc : e.heap.member? c s = some w) (hf : ∀ f, w ≠ .function f) (hp : ∀ p, w ≠ .property p) :
    getNamed call x s e = .ok w e := by
  have hbound : boundMember? call x s e = .ok (some w) e := by
    unfold boundMember?
    rw [bind_apply, prototypeMember?_apply hx, hc]
    cases w with
    | function f => exact absurd rfl (hf f)
    | property p => exact absurd rfl (hp p)
    | _ => rfl
  unfold getNamed
  rw [bind_apply, hbound]
  rfl

theorem getMember_name (hx : e.sequenceClass? x = some c) (hkey : e.heap.keyOf key = .name s)
    (hs : (Key.name s).toIndex? = some i) : getMember call x key e = getNamed call x s e := by
  have hlength := ne_length_of_toIndex? hs
  unfold getMember
  rw [getHeap_bind_apply]
  cases x <;> cases hx <;> simp only [hkey, if_neg hlength]

/-- A key that reads as an index reads what the index does, unless the class has a member of its
name. -/
theorem getMember_at (hx : e.sequenceClass? x = some c)
    (hkey : (e.heap.keyOf key).toIndex? = some i) (hc : e.Unshadowed c key) :
    getMember call x key e = getAt x i e := by
  rcases hk : e.heap.keyOf key with j | s
  · obtain rfl : j = i := by
      rw [hk] at hkey
      exact Option.some.inj hkey
    unfold getMember
    rw [getHeap_bind_apply]
    cases x <;> cases hx <;> simp only [hk] <;> rfl
  · rw [hk] at hkey
    rw [getMember_name hx hk hkey, getNamed_unshadowed hx hkey (hc s hk)]

theorem removeMember_item (hkey : (e.heap.keyOf key).toIndex? = some i) :
    removeMember (.array r) key e =
      match resolveIndex i (e.heap.array r).size with
      | some index => .ok () { e with heap := e.heap.modifyArray r (·.eraseIdxIfInBounds index) }
      | none => .ok () e := by
  unfold removeMember
  rw [getHeap_bind_apply]
  simp only [hkey]
  rcases resolveIndex i (e.heap.array r).size with _ | index <;> rfl

end Script

/-! ## Writes leave the classes alone -/

theorem Heap.ancestry_modifyArray (h : Heap) (f : Array Value → Array Value) (c : ClassRef) :
    (h.modifyArray r f).ancestry c = h.ancestry c := by
  fun_induction ancestry h c with
  | case1 c ih =>
    rw [ancestry, show (h.modifyArray r f).classObject c = h.classObject c from rfl]
    congr 2
    funext p
    split
    · exact ih p ‹_›
    · rfl

theorem Heap.member?_modifyArray (h : Heap) (f : Array Value → Array Value) (c : ClassRef)
    (s : String) : (h.modifyArray r f).member? c s = h.member? c s := by
  rw [member?, ancestry_modifyArray]
  rfl

/-- The item that a write through an index puts in its place is read back through it. -/
theorem Script.getItem_stored {items : Array Value} (hi : 0 ≤ position i items.size)
    (harray : e.heap.array r = storeItem items (position i items.size).toNat v) :
    getItem r i e = .ok v e := by
  set j := (position i items.size).toNat with hj
  rw [storeItem_eq] at harray
  have hsize : (e.heap.array r).size = max items.size (j + 1) := by
    rw [harray, Array.size_ofFn]
  have hposition : position i (e.heap.array r).size = j := by
    rw [hsize]
    unfold position at hi hj ⊢
    split <;> split at hi <;> omega
  have hlt : j < (e.heap.array r).size := by omega
  rw [getItem_inside hlt hposition]
  simp only [harray, Array.getElem_ofFn, if_true]

/-- A successful write through an index changes the array alone, and is read back there. -/
theorem Script.setItem_ok {e' : Engine} (hr : r.index < e.heap.arrays.size)
    (hset : setItem r i v e = .ok () e') :
    (∃ f, e' = { e with heap := e.heap.modifyArray r f }) ∧ getItem r i e' = .ok v e' := by
  obtain ⟨hin, hout⟩ := writeIndex_eq i (e.heap.array r).size e.limits.maxArrayLength
  rw [setItem_apply] at hset
  by_cases hj : 0 ≤ position i (e.heap.array r).size ∧
      position i (e.heap.array r).size < e.limits.maxArrayLength
  · rw [hin hj] at hset
    obtain rfl := (EStateM.Result.ok.inj hset).2
    exact ⟨⟨_, rfl⟩, getItem_stored hj.1 (Heap.array_modifyArray hr _)⟩
  · obtain ⟨cause, hcause⟩ := hout hj
    rw [hcause] at hset
    cases hset

/-! ## The main result -/

/-- Names that spell a whole number and keys that are this number select the same item. -/
theorem spelled_keys_select_by_index (call : Invoke) {e : Engine} {x : Value} {c : ClassRef}
    (hx : e.sequenceClass? x = some c) {s : String} {i : Int}
    (hs : (Key.name s).toIndex? = some i) {key : Value}
    (hkey : (e.heap.keyOf key).toIndex? = some i) :
    (e.heap.member? c s = none → e.Unshadowed c key →
      Script.getMember call x (.str s) e = Script.getMember call x key e) ∧
    (∀ w, e.heap.member? c s = some w → (∀ f, w ≠ .function f) → (∀ p, w ≠ .property p) →
      Script.getMember call x (.str s) e = .ok w e) ∧
    ∀ r, x = .array r →
      (∀ v, Script.setMember call x (.str s) v e = Script.setMember call x key v e) ∧
      Script.removeMember x (.str s) e = Script.removeMember x key e ∧
      ∀ v e', r.index < e.heap.arrays.size → e.heap.member? c s = none →
        Script.setMember call x (.str s) v e = .ok () e' →
        Script.getMember call x (.str s) e' = .ok v e' := by
  have hname (e : Engine) : e.heap.keyOf (.str s) = .name s := rfl
  have hs' (e : Engine) : (e.heap.keyOf (.str s)).toIndex? = some i := hs
  have hplain {e : Engine} (hc : e.heap.member? c s = none) : e.Unshadowed c (.str s) :=
    fun t ht => by
      cases ht
      exact hc
  refine ⟨fun hc hc' => ?_, fun w hw hf hp => ?_, ?_⟩
  · rw [Script.getMember_at hx (hs' e) (hplain hc), Script.getMember_at hx hkey hc']
  · rw [Script.getMember_name hx (hname e) hs, Script.getNamed_shadowed hx hw hf hp]
  · rintro r rfl
    refine ⟨fun v => ?_, ?_, fun v e' hr hc hset => ?_⟩
    · rw [Script.setMember_item (hs' e), Script.setMember_item hkey]
    · rw [Script.removeMember_item (hs' e), Script.removeMember_item hkey]
    · rw [Script.setMember_item (hs' e)] at hset
      obtain ⟨⟨f, rfl⟩, hread⟩ := Script.setItem_ok hr hset
      set e₁ : Engine := { e with heap := e.heap.modifyArray r f }
      have hx₁ : e₁.sequenceClass? (.array r) = some c := hx
      have hc₁ : e₁.heap.member? c s = none := (e.heap.member?_modifyArray f c s).trans hc
      rw [Script.getMember_at hx₁ (hs' e₁) (hplain hc₁)]
      exact hread

/-- The second item of two, read and written through the number one with a blank before it. -/
theorem spelled_keys_select_by_index_arrayEngine :
    Script.getMember (callWithin 0) (.array ⟨0⟩) (.str " 1") arrayEngine =
        Script.getMember (callWithin 0) (.array ⟨0⟩) (.ofInt 1) arrayEngine ∧
      ∀ v, Script.setMember (callWithin 0) (.array ⟨0⟩) (.str " 1") v arrayEngine =
        Script.setMember (callWithin 0) (.array ⟨0⟩) (.ofInt 1) v arrayEngine := by
  have hs : (Key.name " 1").toIndex? = some 1 := by decide +kernel
  have hkey : arrayEngine.heap.keyOf (.ofInt 1) = .index 1 :=
    Heap.keyOf_ofInt _ (by decide)
  have hindex : (arrayEngine.heap.keyOf (.ofInt 1)).toIndex? = some 1 := by
    rw [hkey]
    rfl
  have hmember : arrayEngine.heap.member? ⟨0⟩ " 1" = none := member?_arrayEngine " 1"
  obtain ⟨hget, -, harray⟩ := spelled_keys_select_by_index (callWithin 0) (e := arrayEngine)
    (x := .array ⟨0⟩) (c := ⟨0⟩) rfl hs hindex
  refine ⟨hget hmember fun t ht => ?_, (harray ⟨0⟩ rfl).1⟩
  rw [hkey] at ht
  cases ht

end ScriptEngine
