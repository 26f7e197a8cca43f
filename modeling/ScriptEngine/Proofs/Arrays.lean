import ScriptEngine.Machine
import ScriptEngine.Proofs.Nesting.Path
import ScriptEngine.Proofs.NumberValue
import ScriptEngine.Proofs.Trace.Stack

/-!
# Writes to arrays

**Theorem (`array_writes_are_exact`).** A write to an array, be it through an index, `length`,
`count`, `add`, `insert` or `erase`, either leaves exactly the items that `ArrayWrite.outcome`
gives one by one, or fails and leaves every array as it was. No write makes an array longer than
the cap, if it was not so before, and an index reads the item at its place.

* *places*: `position` is the one rule for negative indices, and no machine word overflows on the
  way to it (`wordPosition_toInt`);
* *items*: what the primitive operations on items do, place by place (`storeItem_eq`,
  `resizeItems_eq`, `insertItems_eq`, `eraseItems_eq`);
* *runs*: `Settled` ties the result of a run to an outcome. It is shown for each native member on
  its own, and a call of a member adds no more than the function that was bound to the array.

The members are those that the class of arrays is made with (`Engine.WritesArrays`); a script can
replace them.
-/

namespace ScriptEngine

/-! ## Places -/

/-- The place that an index means in a sequence: negative ones count from the end. -/
def position (i : Int) (length : Nat) : Int :=
  if i < 0 then i + length else i

/-- The same on machine words. -/
def wordPosition (i : Int64) (length : Nat) : Int64 :=
  if i < 0 then i + Int64.ofNat length else i

/-- No machine word overflows on the way to a place. -/
theorem wordPosition_toInt (i : Int64) {n : Nat} (hn : n < 2 ^ 63) :
    (wordPosition i n).toInt = position i.toInt n := by
  have hi := i.toInt_lt
  have hi' := i.le_toInt
  have h0 : (i < 0) ↔ i.toInt < 0 := Int64.lt_iff_toInt_lt
  have hlen : (Int64.ofNat n).toInt = n := Int64.toInt_ofNat_of_lt hn
  unfold wordPosition position
  by_cases h : i.toInt < 0
  · rw [if_pos (h0.2 h), if_pos h, Int64.toInt_add, hlen, Int.bmod_eq_of_le (by omega) (by omega)]
  · rw [if_neg (mt h0.1 h), if_neg h]

/-- `resolveIndex` on machine words. -/
def wordResolveIndex (i : Int64) (length : Nat) : Option Nat :=
  let j := wordPosition i length
  if 0 ≤ j ∧ j < Int64.ofNat length then some j.toUInt64.toNat else none

/-- `writeIndex` on machine words. -/
def wordWriteIndex (i : Int64) (length cap : Nat) : Except RuntimeFault Nat :=
  let j := wordPosition i length
  if j < 0 then .error (.arrayIndex i.toInt)
  else if cap ≤ j.toUInt64.toNat then .error (.arrayTooLong cap)
  else .ok j.toUInt64.toNat

/-- The place at which an item is inserted, on machine words. -/
def wordInsertIndex (i : Int64) (length cap : Nat) : Except RuntimeFault Nat :=
  let j := wordPosition i length
  if j < 0 ∨ Int64.ofNat length < j then .error (.insertIndex i.toInt)
  else if cap ≤ length then .error (.arrayTooLong cap)
  else .ok j.toUInt64.toNat

/-- How a place on machine words compares with the ends of a sequence. -/
theorem wordPosition_compare (i : Int64) {n : Nat} (hn : n < 2 ^ 63) :
    (wordPosition i n < 0 ↔ position i.toInt n < 0) ∧
      (wordPosition i n < Int64.ofNat n ↔ position i.toInt n < n) ∧
      (Int64.ofNat n < wordPosition i n ↔ (n : Int) < position i.toInt n) := by
  have hlen : (Int64.ofNat n).toInt = n := Int64.toInt_ofNat_of_lt hn
  simp only [Int64.lt_iff_toInt_lt, wordPosition_toInt i hn, hlen, Int64.toInt_zero, and_self]

theorem toNat_wordPosition (i : Int64) {n : Nat} (hn : n < 2 ^ 63) (hj : ¬ wordPosition i n < 0) :
    (wordPosition i n).toUInt64.toNat = (position i.toInt n).toNat := by
  rw [Int64.toNat_toUInt64_of_le (Int64.not_lt.1 hj), ← Int64.toNat_toInt, wordPosition_toInt i hn]

theorem wordResolveIndex_eq (i : Int64) {n : Nat} (hn : n < 2 ^ 63) :
    wordResolveIndex i n = resolveIndex i.toInt n := by
  obtain ⟨hneg, hlt, -⟩ := wordPosition_compare i hn
  have hrange : 0 ≤ wordPosition i n ∧ wordPosition i n < Int64.ofNat n ↔
      0 ≤ position i.toInt n ∧ position i.toInt n < n := by
    rw [← Int64.not_lt, hneg, hlt, Int.not_lt]
  change (if 0 ≤ wordPosition i n ∧ wordPosition i n < Int64.ofNat n then _ else none) =
    if 0 ≤ position i.toInt n ∧ position i.toInt n < n then some (position i.toInt n).toNat else none
  refine if_ctx_congr hrange (fun h => ?_) fun _ => rfl
  rw [toNat_wordPosition i hn (by rw [hneg]; omega)]

theorem wordWriteIndex_eq (i : Int64) {n : Nat} (hn : n < 2 ^ 63) (cap : Nat) :
    wordWriteIndex i n cap = writeIndex i.toInt n cap := by
  have hneg := (wordPosition_compare i hn).1
  change (if wordPosition i n < 0 then _ else _) = if position i.toInt n < 0 then _ else _
  refine if_ctx_congr hneg (fun _ => rfl) fun h => ?_
  rw [toNat_wordPosition i hn (mt hneg.1 h)]
  rfl

theorem resolveIndex_eq (i : Int) (n : Nat) :
    resolveIndex i n =
      if 0 ≤ position i n ∧ position i n < n then some (position i n).toNat else none := rfl

/-! ## Writes -/

/-- A write to an array. -/
inductive ArrayWrite where
  /-- A value for a key that reads as an index. -/
  | item (i : Int) (key v : Value)
  | length (x : Value)
  | count (x : Value)
  | add (v : Value)
  | insert (i v : Value)
  | erase (i : Value)

/-- The length that a value denotes for an array, where the cap allows it. -/
def Value.length? (x : Value) (cap : Nat) : Option Nat :=
  match x.toNumber with
  | .ok y =>
    if y.isFinite ∧ 0 ≤ y.value ∧ y.value ≤ (Number.ofNat cap).value then some ⌊y.value⌋₊ else none
  | .error _ => none

/-- The place that a value means as an index of 32 bits. -/
def Value.position? (x : Value) (length : Nat) : Option Int :=
  x.toInt32.toOption.map fun i => position i.toInt length

namespace ArrayWrite

/-- Calls a member of an array. -/
def callMember (call : Invoke) (r : ArrayRef) (name : String) (args : Array Value) :
    Script Value := do
  let f ← Script.getMember call (.array r) (.str name)
  Script.callValue call f args

/-- Runs a write as a script does. -/
def run (call : Invoke) (r : ArrayRef) : ArrayWrite → Script Value
  | .item _ key v => do
    Script.setMember call (.array r) key v
    return .void
  | .length x => do
    Script.setMember call (.array r) (.str "length") x
    return .void
  | .count x => do
    Script.setMember call (.array r) (.str "count") x
    return .void
  | .add v => callMember call r "add" #[v]
  | .insert i v => callMember call r "insert" #[i, v]
  | .erase i => callMember call r "erase" #[i]

/-- Whether the key of a write reads as its index. -/
def Spelled (h : Heap) : ArrayWrite → Prop
  | .item i key _ => (h.keyOf key).toIndex? = some i
  | _ => True

/-- The items that a write leaves and what it answers, given item by item; none if the write is
refused. -/
def outcome (cap : Nat) (items : Array Value) : ArrayWrite → Option (Array Value × Value)
  | .item i _ v =>
    let j := position i items.size
    if 0 ≤ j ∧ j < cap then
      some (.ofFn (n := max items.size (j.toNat + 1)) fun k =>
        if k = j.toNat then v else items.getD k .void, .void)
    else none
  | .length x | .count x =>
    (x.length? cap).map fun m => (.ofFn (n := m) fun k => items.getD k .void, .void)
  | .add v =>
    if items.size < cap then some (items.push v, .ofNat items.size) else none
  | .insert i v =>
    match i.position? items.size with
    | some j =>
      if 0 ≤ j ∧ j ≤ items.size ∧ items.size < cap then
        some (.ofFn (n := items.size + 1) fun k =>
          if k < j.toNat then items.getD k .void
          else if k = j.toNat then v
          else items.getD (k - 1) .void, .void)
      else none
    | none => none
  | .erase i =>
    match i.position? items.size with
    | some j =>
      if 0 ≤ j ∧ j < items.size then
        some (.ofFn (n := items.size - 1) fun k =>
          if k < j.toNat then items.getD k .void else items.getD (k + 1) .void, .void)
      else none
    | none => none

end ArrayWrite

/-- The items of `r` are new, and nothing else is, apart from functions that were made. -/
structure Overwritten (r : ArrayRef) (items : Array Value) (e e' : Engine) : Prop where
  array : e'.heap.array r = items
  others : ∀ s, s ≠ r → e'.heap.array s = e.heap.array s
  rest : e' = { e with
    heap := { e.heap with arrays := e'.heap.arrays, functions := e'.heap.functions } }

/-- Nothing changed, apart from functions that were made. -/
def Untouched (e e' : Engine) : Prop :=
  e' = { e with heap := { e.heap with functions := e'.heap.functions } }

/-- The class of arrays has the members for writes that it is made with. -/
structure Engine.WritesArrays (e : Engine) : Prop where
  count : ∃ p f, e.heap.member? e.arrayClass "count" = some (.property p) ∧
    (e.heap.property p).setter = some f ∧ f.body = .native (.array .setLength)
  method : ∀ name which,
    (name, which) ∈ [("add", ArrayMember.add), ("insert", .insert), ("erase", .erase)] →
    ∃ f, e.heap.member? e.arrayClass name = some (.function f) ∧
      (e.heap.function f).body = .native (.array which)

/-! ## Results item by item -/

variable {items : Array Value} {v : Value} {j m : Nat}

theorem getD_of_lt {k : Nat} (h : k < items.size) : items.getD k .void = items[k] := by
  rw [Array.getD_eq_getD_getElem?, Array.getElem?_eq_getElem h, Option.getD_some]

/-- Items that are filled up with void read as before, and as void behind the old end. -/
theorem getElem_padded {k : Nat} (h : k < (items ++ Array.replicate m Value.void).size) :
    (items ++ Array.replicate m Value.void)[k] = items.getD k .void := by
  by_cases hk : k < items.size
  · rw [Array.getElem_append_left hk, getD_of_lt hk]
  · rw [Array.getElem_append_right (by omega), Array.getElem_replicate, Array.getD_eq_getD_getElem?,
      Array.getElem?_eq_none (by omega), Option.getD_none]

theorem resizeItems_eq (items : Array Value) (m : Nat) :
    resizeItems items m = .ofFn (n := m) fun k => items.getD k .void := by
  unfold resizeItems
  split
  next h =>
    refine Array.ext (by simp; omega) fun k hk _ => ?_
    rw [getElem_padded hk, Array.getElem_ofFn]
  next h =>
    refine Array.ext (by simp; omega) fun k hk _ => ?_
    have hk' : k < items.size := by
      rw [Array.take, Array.size_extract] at hk
      omega
    rw [Array.getElem_ofFn, getD_of_lt hk']
    simp

theorem storeItem_eq (items : Array Value) (j : Nat) (v : Value) :
    storeItem items j v =
      .ofFn (n := max items.size (j + 1)) fun k => if k = j then v else items.getD k .void := by
  unfold storeItem
  split
  next h =>
    refine Array.ext (by simp; omega) fun k hk _ => ?_
    have hk' : k < items.size := by simpa using hk
    rw [Array.getElem_setIfInBounds hk', Array.getElem_ofFn, getD_of_lt hk']
    simp only [eq_comm]
  next h =>
    have hsize : (items ++ Array.replicate (j - items.size) Value.void).size = j := by
      simp
      omega
    refine Array.ext (by simp; omega) fun k hk _ => ?_
    rw [Array.size_push, hsize] at hk
    rw [Array.getElem_push, Array.getElem_ofFn]
    split
    next hkj => rw [getElem_padded hkj, if_neg (by dsimp only; omega)]
    next hkj => rw [if_pos (by dsimp only; omega)]

theorem insertItems_eq (hj : j ≤ items.size) :
    items.insertIdxIfInBounds j v =
      .ofFn (n := items.size + 1) fun k =>
        if k < j then items.getD k .void
        else if k = j then v
        else items.getD (k - 1) .void := by
  rw [Array.insertIdxIfInBounds, dif_pos hj]
  refine Array.ext (by simp) fun k hk _ => ?_
  rw [Array.getElem_insertIdx, Array.getElem_ofFn]
  rw [Array.size_insertIdx] at hk
  split
  next h => exact (getD_of_lt (by omega)).symm
  next h =>
    split
    · rfl
    · exact (getD_of_lt (by omega)).symm

theorem eraseItems_eq (hj : j < items.size) :
    items.eraseIdxIfInBounds j =
      .ofFn (n := items.size - 1) fun k =>
        if k < j then items.getD k .void else items.getD (k + 1) .void := by
  rw [Array.eraseIdxIfInBounds, dif_pos hj]
  refine Array.ext (by simp) fun k hk _ => ?_
  rw [Array.getElem_eraseIdx, Array.getElem_ofFn]
  rw [Array.size_eraseIdx] at hk
  rw [getD_of_lt (show k < items.size by omega), getD_of_lt (show k + 1 < items.size by omega)]
  rfl

/-! ## The outcome of a run -/

variable {e e₁ : Engine} {r : ArrayRef} {call : Invoke}

/-- What a run has to be, given the outcome of a write. -/
def Settled (r : ArrayRef) (e : Engine) :
    Option (Array Value × Value) → EStateM.Result Failure Engine Value → Prop
  | some (items, answer), res => ∃ e', res = .ok answer e' ∧ Overwritten r items e e'
  | none, res => ∃ cause e', res = .error (.runtime cause) e' ∧ Untouched e e'

theorem Untouched.refl (e : Engine) : Untouched e e := rfl

theorem Untouched.array (h : Untouched e e₁) (s : ArrayRef) :
    e₁.heap.array s = e.heap.array s := by
  rw [h]
  rfl

theorem Untouched.settled {o : Option (Array Value × Value)}
    {res : EStateM.Result Failure Engine Value} (h : Untouched e e₁) (hs : Settled r e₁ o res) :
    Settled r e o res := by
  unfold Untouched at h
  rcases o with _ | ⟨items, answer⟩
  · obtain ⟨cause, e', hres, he'⟩ := hs
    refine ⟨cause, e', hres, ?_⟩
    unfold Untouched at he' ⊢
    rw [he', h]
  · obtain ⟨e', hres, harray, hothers, hrest⟩ := hs
    refine ⟨e', hres, harray, fun s hs => (hothers s hs).trans ?_, ?_⟩
    · rw [h]
      rfl
    · rw [hrest, h]

/-- A run that changes the items of the array and answers is settled. -/
theorem settled_modify (hr : r.index < e.heap.arrays.size) {f : Array Value → Array Value}
    (hf : f (e.heap.array r) = items) (answer : Value) :
    Settled r e (some (items, answer))
      (.ok answer { e with heap := e.heap.modifyArray r f }) :=
  ⟨_, rfl, (Heap.array_modifyArray hr f).trans hf, fun _ hs => Heap.array_modifyArray_ne hs f,
    rfl⟩

theorem settled_raise (cause : RuntimeFault) : Settled r e none (.error (.runtime cause) e) :=
  ⟨cause, e, rfl, .refl e⟩

namespace Script

theorem setItem_apply (i : Int) (v : Value) (e : Engine) :
    setItem r i v e =
      match writeIndex i (e.heap.array r).size e.limits.maxArrayLength with
      | .ok j => .ok () { e with heap := e.heap.modifyArray r (storeItem · j v) }
      | .error cause => .error (.runtime cause) e := by
  change (do
    let index ← ofExcept (writeIndex i (e.heap.array r).size e.limits.maxArrayLength)
    modifyHeap (·.modifyArray r (storeItem · index v))) e = _
  rcases writeIndex i (e.heap.array r).size e.limits.maxArrayLength with cause | j <;> rfl

theorem setLength_apply (x : Number) (e : Engine) :
    setLength r x e =
      match lengthOf x e.limits.maxArrayLength with
      | .ok m => .ok () { e with heap := e.heap.modifyArray r (resizeItems · m) }
      | .error cause => .error (.runtime cause) e := by
  change (do
    let length ← ofExcept (lengthOf x e.limits.maxArrayLength)
    modifyHeap (·.modifyArray r (resizeItems · length))) e = _
  rcases lengthOf x e.limits.maxArrayLength with cause | j <;> rfl

theorem insertItem_apply (i : Int) (v : Value) (e : Engine) :
    insertItem r i v e =
      if position i (e.heap.array r).size < 0 ∨
          ((e.heap.array r).size : Int) < position i (e.heap.array r).size then
        .error (.runtime (.insertIndex i)) e
      else if e.limits.maxArrayLength ≤ (e.heap.array r).size then
        .error (.runtime (.arrayTooLong e.limits.maxArrayLength)) e
      else
        .ok () { e with
          heap := e.heap.modifyArray r
            (·.insertIdxIfInBounds (position i (e.heap.array r).size).toNat v) } := by
  unfold insertItem
  rw [get_bind_apply]
  dsimp only [position]
  split_ifs <;> rfl

/-- An item is inserted at the place that is found on machine words. -/
theorem insertItem_word (i : Int64) {e : Engine} (hn : (e.heap.array r).size < 2 ^ 63) (v : Value) :
    insertItem r i.toInt v e = (do
      let k ← ofExcept (wordInsertIndex i (e.heap.array r).size e.limits.maxArrayLength)
      modifyHeap (·.modifyArray r (·.insertIdxIfInBounds k v))) e := by
  obtain ⟨hneg, -, hlt⟩ := wordPosition_compare i hn
  rw [insertItem_apply, wordInsertIndex]
  by_cases hout : position i.toInt (e.heap.array r).size < 0 ∨
      ((e.heap.array r).size : Int) < position i.toInt (e.heap.array r).size
  · rw [if_pos hout, if_pos (or_congr hneg hlt |>.2 hout)]
    rfl
  · have hplace := toNat_wordPosition i hn fun h => hout (.inl (hneg.1 h))
    rw [if_neg hout, if_neg (mt (or_congr hneg hlt).1 hout), hplace]
    split_ifs <;> rfl

theorem setMember_item {key : Value} {i : Int} (hkey : (e.heap.keyOf key).toIndex? = some i)
    (v : Value) : setMember call (.array r) key v e = setItem r i v e := by
  unfold setMember
  rw [getHeap_bind_apply]
  simp only [hkey]

theorem setMember_length (x : Value) :
    setMember call (.array r) (.str "length") x e =
      (do setLength r (← toNumber x) : Script Unit) e := by
  have hkey : e.heap.keyOf (.str "length") = .name "length" := rfl
  have hindex : (Key.name "length").toIndex? = none := by decide +kernel
  unfold setMember
  rw [getHeap_bind_apply]
  simp only [hkey, hindex]
  rfl

theorem setMember_count (x : Value) {p : PropertyRef} {f : Function}
    (hp : e.heap.member? e.arrayClass "count" = some (.property p))
    (hf : (e.heap.property p).setter = some f) :
    setMember call (.array r) (.str "count") x e =
      (discard (call { f with receiver := .array r } #[x]) : Script Unit) e := by
  have hkey : e.heap.keyOf (.str "count") = .name "count" := rfl
  have hindex : (Key.name "count").toIndex? = none := by decide +kernel
  have hproto : prototypeMember? (.array r) "count" e = .ok (some (.property p)) e := by
    change EStateM.Result.ok (e.heap.member? e.arrayClass "count") e = _
    rw [hp]
  unfold setMember
  rw [getHeap_bind_apply]
  simp only [hkey, hindex, Key.toName]
  change setNamed call (.array r) "count" x e = _
  unfold setNamed
  rw [bind_apply, hproto]
  change ((e.heap.property p).bind (.array r)).write call x e = _
  rw [Property.write, Property.bind, hf]
  rfl

/-- A function of the class of arrays is read as a new function with the array as its receiver. -/
theorem getMember_method {name : String} {f : FunctionRef} (hname : name ≠ "length")
    (hf : e.heap.member? e.arrayClass name = some (.function f)) :
    getMember call (.array r) (.str name) e =
      .ok (.function ⟨e.heap.functions.size⟩)
        { e with
          heap := (e.heap.newFunction { e.heap.function f with receiver := .array r }).2 } := by
  have hproto : prototypeMember? (.array r) name e = .ok (some (.function f)) e := by
    change EStateM.Result.ok (e.heap.member? e.arrayClass name) e = _
    rw [hf]
  have hkey : e.heap.keyOf (.str name) = .name name := rfl
  unfold getMember
  rw [getHeap_bind_apply]
  simp only [hkey, if_neg hname]
  unfold getNamed boundMember?
  rw [bind_apply, bind_apply, hproto]
  rfl

end Script

namespace ArrayWrite

/-- A member that is called on the array runs with it as its receiver. -/
theorem callMember_apply {name : String} {f : FunctionRef} {which : ArrayMember} (host : Host)
    (fuel : Nat) (hname : name ≠ "length") (hf : e.heap.member? e.arrayClass name = some (.function f))
    (hbody : (e.heap.function f).body = .native (.array which)) (args : Array Value) :
    ∃ e₁, Untouched e e₁ ∧
      callMember (host.call (fuel + 1)) r name args e =
        Script.runArray (.array r) args which e₁ := by
  set g : Function := { e.heap.function f with receiver := .array r } with hg
  have hcall : host.call (fuel + 1) g args = Script.runArray (.array r) args which :=
    Function.call_native host (show g.body = .native (.array which) from hbody) args
  have hread : (e.heap.newFunction g).2.function ⟨e.heap.functions.size⟩ = g := by
    simp [Heap.newFunction, Heap.function, Array.getD_eq_getD_getElem?]
  refine ⟨{ e with heap := (e.heap.newFunction g).2 }, rfl, ?_⟩
  unfold callMember
  rw [Script.bind_apply, Script.getMember_method hname hf, ← hg]
  dsimp only [Script.callValue]
  rw [Script.getHeap_bind_apply]
  dsimp only
  rw [hread, hcall]

end ArrayWrite

/-! ## Lengths -/

/-- Where a cap is a machine word, the numbers that denote a length are the finite ones between
zero and the number of the cap. -/
theorem lengthOf_eq {cap : Nat} (hcap : cap < 2 ^ 64) (y : Number) :
    lengthOf y cap =
      if y.isFinite ∧ 0 ≤ y.value ∧ y.value ≤ (Number.ofNat cap).value then .ok ⌊y.value⌋₊
      else .error (.arrayTooLong cap) := by
  have hfin : (Number.ofNat cap).isFinite = true := Number.ofInt_isFinite (by simpa using hcap)
  have hzero : Number.zero.isFinite = true := rfl
  unfold lengthOf
  by_cases hy : y.isFinite = true
  · simp only [Bool.and_eq_true, Number.le_iff hzero hy, Number.le_iff hy hfin, Number.zero_value,
      hy, true_and]
    split
    next h => rw [Number.truncate_toNat h.1]
    next => rfl
  · have hnot : ¬(Number.zero.le y = true ∧ y.le (.ofNat cap) = true) := fun h =>
      hy (Number.isFinite_of_le h.1 h.2 hfin)
    rw [if_neg (by simpa using hnot), if_neg fun h => hy h.1]

/-! ## One write -/

/-- The place of a write, where it is not refused. -/
theorem writeIndex_eq (i : Int) (n cap : Nat) :
    (0 ≤ position i n ∧ position i n < cap → writeIndex i n cap = .ok (position i n).toNat) ∧
      (¬(0 ≤ position i n ∧ position i n < cap) → ∃ cause, writeIndex i n cap = .error cause) := by
  have heq : writeIndex i n cap =
      if position i n < 0 then .error (.arrayIndex i)
      else if cap ≤ (position i n).toNat then .error (.arrayTooLong cap)
      else .ok (position i n).toNat := rfl
  constructor
  · intro h
    rw [heq, if_neg (by omega), if_neg (by omega)]
  · intro h
    rw [heq]
    split
    · exact ⟨_, rfl⟩
    · rw [if_pos (by omega)]
      exact ⟨_, rfl⟩

section Writes

variable (hr : r.index < e.heap.arrays.size)
include hr

theorem settled_setItem (i : Int) (key v : Value) :
    Settled r e ((ArrayWrite.item i key v).outcome e.limits.maxArrayLength (e.heap.array r))
      ((do Script.setItem r i v; return .void : Script Value) e) := by
  obtain ⟨hin, hout⟩ := writeIndex_eq i (e.heap.array r).size e.limits.maxArrayLength
  rw [Script.bind_apply, Script.setItem_apply]
  dsimp only [ArrayWrite.outcome]
  by_cases h : 0 ≤ position i (e.heap.array r).size ∧
      position i (e.heap.array r).size < e.limits.maxArrayLength
  · rw [hin h, if_pos h]
    exact settled_modify hr (storeItem_eq _ _ _) .void
  · obtain ⟨cause, hcause⟩ := hout h
    rw [hcause, if_neg h]
    exact settled_raise cause

theorem settled_setLength (hcap : e.limits.maxArrayLength < 2 ^ 64) (x : Value) :
    Settled r e ((ArrayWrite.length x).outcome e.limits.maxArrayLength (e.heap.array r))
      ((do Script.setLength r (← Script.toNumber x); return .void : Script Value) e) := by
  rw [Script.bind_apply]
  dsimp only [ArrayWrite.outcome, Value.length?, Script.toNumber]
  rcases x.toNumber with cause | y
  · exact settled_raise cause
  · change Settled r e _ ((do Script.setLength r y; return .void : Script Value) e)
    rw [Script.bind_apply, Script.setLength_apply, lengthOf_eq hcap]
    dsimp only
    split
    · exact settled_modify hr (resizeItems_eq _ _) .void
    · exact settled_raise _

theorem settled_setCount (hcap : e.limits.maxArrayLength < 2 ^ 64) (x : Value) :
    Settled r e ((ArrayWrite.count x).outcome e.limits.maxArrayLength (e.heap.array r))
      (Script.runArray (.array r) #[x] .setLength e) := by
  change Settled r e _ ((do
    let y ← Script.toNumber x
    if y.lt .zero then Script.raise .negativeLength
    Script.setLength r y
    return .void : Script Value) e)
  rw [Script.bind_apply]
  dsimp only [ArrayWrite.outcome, Value.length?, Script.toNumber]
  rcases x.toNumber with cause | y
  · exact settled_raise cause
  · change Settled r e _ ((do
      if y.lt .zero then Script.raise .negativeLength
      Script.setLength r y
      return .void : Script Value) e)
    have hlength := settled_setLength hr hcap (.number y)
    by_cases hneg : y.lt .zero = true
    · have hnot : ¬(y.isFinite ∧ 0 ≤ y.value ∧
          y.value ≤ (Number.ofNat e.limits.maxArrayLength).value) := by
        rintro ⟨hy, hpos, -⟩
        have hle := (Number.le_iff (x := .zero) rfl hy).2 (Number.zero_value ▸ hpos)
        rw [Number.lt_eq_false_of_le hle] at hneg
        cases hneg
      dsimp only
      rw [if_neg hnot, if_pos hneg]
      exact settled_raise _
    · rw [if_neg hneg]
      exact hlength

theorem settled_insertItem (i : Value) (v : Value) :
    Settled r e ((ArrayWrite.insert i v).outcome e.limits.maxArrayLength (e.heap.array r))
      (Script.runArray (.array r) #[i, v] .insert e) := by
  change Settled r e _
    ((do Script.insertItem r (← Script.toInt i) v; return .void : Script Value) e)
  dsimp only [ArrayWrite.outcome, Value.position?]
  rw [Script.bind_apply]
  unfold Script.toInt
  rcases i.toInt32 with cause | j
  · exact settled_raise cause
  · change Settled r e _ ((do Script.insertItem r j.toInt v; return .void : Script Value) e)
    dsimp only [Except.toOption, Option.map_some]
    rw [Script.bind_apply, Script.insertItem_apply]
    set n := (e.heap.array r).size
    set k := position j.toInt n
    by_cases hin : 0 ≤ k ∧ k ≤ n
    · rw [if_neg (show ¬(k < 0 ∨ (n : Int) < k) by omega)]
      by_cases hroom : n < e.limits.maxArrayLength
      · rw [if_pos ⟨hin.1, hin.2, hroom⟩, if_neg (not_le.2 hroom)]
        exact settled_modify hr (insertItems_eq (by omega)) .void
      · rw [if_neg fun h : 0 ≤ k ∧ k ≤ n ∧ n < _ => hroom h.2.2, if_pos (not_lt.1 hroom)]
        exact settled_raise _
    · rw [if_neg fun h : 0 ≤ k ∧ k ≤ n ∧ n < _ => hin ⟨h.1, h.2.1⟩,
        if_pos (show k < 0 ∨ (n : Int) < k by omega)]
      exact settled_raise _

theorem settled_eraseItem (i : Value) :
    Settled r e ((ArrayWrite.erase i).outcome e.limits.maxArrayLength (e.heap.array r))
      (Script.runArray (.array r) #[i] .erase e) := by
  change Settled r e _ ((do Script.eraseItem r (← Script.toInt i); return .void : Script Value) e)
  dsimp only [ArrayWrite.outcome, Value.position?]
  rw [Script.bind_apply]
  unfold Script.toInt
  rcases i.toInt32 with cause | j
  · exact settled_raise cause
  · change Settled r e _ ((do Script.eraseItem r j.toInt; return .void : Script Value) e)
    dsimp only [Except.toOption, Option.map_some]
    unfold Script.eraseItem
    rw [Script.bind_apply, Script.getHeap_bind_apply, resolveIndex_eq]
    split_ifs with hin
    · exact settled_modify hr (eraseItems_eq (by omega)) .void
    · exact settled_raise _

theorem settled_addItem (v : Value) :
    Settled r e ((ArrayWrite.add v).outcome e.limits.maxArrayLength (e.heap.array r))
      (Script.runArray (.array r) #[v] .add e) := by
  set n := (e.heap.array r).size with hn
  have hposition : position n n = n := if_neg (by omega)
  obtain ⟨hin, hout⟩ := writeIndex_eq n n e.limits.maxArrayLength
  change Settled r e _ ((do Script.setItem r n v; return .ofNat n : Script Value) e)
  rw [Script.bind_apply, Script.setItem_apply, ← hn]
  dsimp only [ArrayWrite.outcome]
  rw [hposition] at hin hout
  by_cases hroom : n < e.limits.maxArrayLength
  · rw [hin (by omega), if_pos hroom]
    refine settled_modify hr ?_ _
    rw [Int.toNat_natCast, storeItem, if_neg (by omega), ← hn, Nat.sub_self]
    simp
  · obtain ⟨cause, hcause⟩ := hout (by omega)
    rw [hcause, if_neg hroom]
    exact settled_raise cause

end Writes

theorem Script.discard_apply {α : Type} (m : Script α) (e : Engine) :
    (discard m : Script Unit) e = match m e with
      | .ok _ e' => .ok () e'
      | .error f e' => .error f e' := by
  change EStateM.map (Function.const α ()) m e = _
  unfold EStateM.map
  rcases m e with ⟨a, e₁⟩ | ⟨f, e₁⟩ <;> rfl

/-- An answer of void can be dropped. -/
theorem settled_discard {o : Option (Array Value × Value)} {m : Script Value}
    (ho : ∀ b ∈ o, b.2 = .void) (h : Settled r e o (m e)) :
    Settled r e o ((do discard m; return .void : Script Value) e) := by
  rcases o with _ | ⟨items, answer⟩
  · obtain ⟨cause, e', hres, he'⟩ := h
    exact ⟨cause, e', by simp only [Script.bind_apply, Script.discard_apply, hres], he'⟩
  · obtain ⟨e', hres, he'⟩ := h
    obtain rfl : answer = .void := ho _ rfl
    refine ⟨e', ?_, he'⟩
    simp only [Script.bind_apply, Script.discard_apply, hres]
    rfl

namespace ArrayWrite

/-- A run of a member of the class of arrays is settled by the member itself. -/
theorem settled_callMember {name : String} {which : ArrayMember} {args : Array Value}
    {w : ArrayWrite} (hw : e.WritesArrays)
    (hwhich : (name, which) ∈ [("add", ArrayMember.add), ("insert", .insert), ("erase", .erase)])
    (hrun : ∀ e₁, Untouched e e₁ →
      Settled r e₁ (w.outcome e₁.limits.maxArrayLength (e₁.heap.array r))
        (Script.runArray (.array r) args which e₁)) (host : Host) (fuel : Nat) :
    Settled r e (w.outcome e.limits.maxArrayLength (e.heap.array r))
      (callMember (host.call (fuel + 1)) r name args e) := by
  obtain ⟨f, hf, hbody⟩ := hw.method name which hwhich
  have hname : name ≠ "length" := by
    rintro rfl
    simp at hwhich
  obtain ⟨e₁, he₁, hcall⟩ := callMember_apply host fuel hname hf hbody args
  have hsettled := hrun e₁ he₁
  have hlimits : e₁.limits = e.limits := by
    rw [he₁]
  rw [he₁.array r, hlimits] at hsettled
  rw [hcall]
  exact he₁.settled hsettled

/-- Every write runs to the outcome that is given for it item by item. -/
theorem settled_run (hr : r.index < e.heap.arrays.size) (hcap : e.limits.maxArrayLength < 2 ^ 64)
    (hw : e.WritesArrays) (host : Host) (fuel : Nat) (w : ArrayWrite) (hspelled : w.Spelled e.heap) :
    Settled r e (w.outcome e.limits.maxArrayLength (e.heap.array r))
      (w.run (host.call (fuel + 1)) r e) := by
  have hr₁ (e₁ : Engine) (he₁ : Untouched e e₁) : r.index < e₁.heap.arrays.size := by
    rw [he₁]
    exact hr
  cases w with
  | item i key v =>
    have h := settled_setItem hr i key v
    dsimp only [run]
    rw [Script.bind_apply] at h ⊢
    rw [Script.setMember_item hspelled]
    exact h
  | length x =>
    have h := settled_setLength hr hcap x
    dsimp only [run]
    rw [Script.bind_apply, Script.setMember_length, ← Script.bind_apply, bind_assoc]
    exact h
  | count x =>
    obtain ⟨p, f, hp, hf, hbody⟩ := hw.count
    have hcall : host.call (fuel + 1) { f with receiver := .array r } #[x] =
        Script.runArray (.array r) #[x] .setLength :=
      Function.call_native host (g := { f with receiver := .array r }) hbody #[x]
    have h := settled_setCount hr hcap x
    dsimp only [run]
    rw [Script.bind_apply, Script.setMember_count x hp hf, ← Script.bind_apply, hcall]
    refine settled_discard (fun b hb => ?_) h
    obtain ⟨m, -, rfl⟩ := Option.map_eq_some_iff.1 hb
    rfl
  | add v =>
    exact settled_callMember hw (by simp) (fun e₁ he₁ => settled_addItem (hr₁ e₁ he₁) v) host fuel
  | insert i v =>
    exact settled_callMember hw (by simp)
      (fun e₁ he₁ => settled_insertItem (hr₁ e₁ he₁) i v) host fuel
  | erase i =>
    exact settled_callMember hw (by simp) (fun e₁ he₁ => settled_eraseItem (hr₁ e₁ he₁) i) host fuel

end ArrayWrite

/-! ## The bounds of what is written -/

/-- A length that is kept exactly as a number is within the cap. -/
theorem Value.length?_le {x : Value} {cap m : Nat} (h : x.length? cap = some m)
    (hm : m ≤ 2 ^ 53) : m ≤ cap := by
  unfold Value.length? at h
  split at h
  next y _ =>
    split at h
    next hy =>
      obtain rfl := Option.some.inj h
      rcases le_or_gt (2 ^ 53) cap with hlarge | hsmall
      · exact hm.trans hlarge
      · refine Nat.floor_le_of_le ?_
        rw [← Number.ofNat_value hsmall.le]
        exact hy.2.2
    next => cases h
  next => cases h

/-- A whole number within the cap is the length that it denotes. -/
theorem Value.length?_ofNat {cap k : Nat} (hcap : cap < 2 ^ 64) (hk : k ≤ cap)
    (hexact : k ≤ 2 ^ 53) :
    (Value.ofNat k).length? cap = some k := by
  have hvalue := Number.ofNat_value hexact
  have hfin : (Number.ofNat k).isFinite = true :=
    Number.ofInt_isFinite (by simpa using hk.trans_lt hcap)
  have hle : (k : ℚ) ≤ (Number.ofNat cap).value := by
    rcases le_or_gt (2 ^ 53) cap with hlarge | hsmall
    · exact le_trans (by exact_mod_cast hexact) (Number.le_ofNat_value hlarge hcap)
    · rw [Number.ofNat_value hsmall.le]
      exact_mod_cast hk
  change (if _ then some ⌊(Number.ofNat k).value⌋₊ else none) = _
  rw [hvalue, if_pos ⟨hfin, Nat.cast_nonneg k, hle⟩, Nat.floor_natCast]

/-- No write makes an array longer than the cap, or than it was. A length of more than 53 binary
digits is beyond every memory, and there the number of the cap may be rounded up. -/
theorem ArrayWrite.outcome_size_le {cap : Nat} {items' : Array Value} {answer : Value}
    (w : ArrayWrite) (hw : w.outcome cap items = some (items', answer))
    (hfits : items'.size ≤ 2 ^ 53) : items'.size ≤ max items.size cap := by
  have hlength (x : Value) (h : (x.length? cap).map (fun m =>
      (Array.ofFn (n := m) fun k => items.getD k .void, Value.void)) = some (items', answer)) :
      items'.size ≤ max items.size cap := by
    obtain ⟨m, hm, hm'⟩ := Option.map_eq_some_iff.1 h
    obtain rfl := congrArg Prod.fst hm'
    rw [Array.size_ofFn] at hfits ⊢
    exact (Value.length?_le hm hfits).trans (le_max_right _ _)
  cases w with
  | length x => exact hlength x hw
  | count x => exact hlength x hw
  | item i key v =>
    dsimp only [outcome] at hw
    split at hw
    next hin =>
      obtain rfl := congrArg Prod.fst (Option.some.inj hw)
      rw [Array.size_ofFn]
      omega
    next => cases hw
  | add v =>
    dsimp only [outcome] at hw
    split at hw
    next hroom =>
      obtain rfl := congrArg Prod.fst (Option.some.inj hw)
      rw [Array.size_push]
      omega
    next => cases hw
  | insert i v =>
    dsimp only [outcome] at hw
    split at hw
    · split at hw
      next hin =>
        obtain rfl := congrArg Prod.fst (Option.some.inj hw)
        rw [Array.size_ofFn]
        omega
      next => cases hw
    · cases hw
  | erase i =>
    dsimp only [outcome] at hw
    split at hw
    · split at hw
      next hin =>
        obtain rfl := congrArg Prod.fst (Option.some.inj hw)
        rw [Array.size_ofFn]
        omega
      next => cases hw
    · cases hw

/-! ## Reading -/

theorem Heap.keyOf_ofInt (h : Heap) {i : Int} (hi : i.natAbs < 9 * 10 ^ 15) :
    h.keyOf (.ofInt i) = .index i := by
  have hvalue := Number.ofInt_value (i := i) (by omega)
  have hfin := Number.ofInt_isFinite (i := i) (by omega)
  have htrunc := Number.truncate_of_value hvalue
  have hwhole := Number.isWhole_of_value hfin hvalue
  simp only [keyOf, Value.ofInt, hwhole, htrunc, Nat.pow_eq, Bool.true_and, decide_eq_true_iff]
  rw [if_pos hi]

theorem Script.getItem_apply (r : ArrayRef) (i : Int) (e : Engine) :
    getItem r i e =
      .ok (if 0 ≤ position i (e.heap.array r).size ∧
            position i (e.heap.array r).size < (e.heap.array r).size then
          (e.heap.array r).getD (position i (e.heap.array r).size).toNat .void
        else .void) e := by
  change EStateM.Result.ok (((resolveIndex i (e.heap.array r).size).bind fun k =>
    (e.heap.array r)[k]?).getD .void) e = _
  rw [resolveIndex_eq]
  split
  next => rw [Option.bind_some, Array.getD_eq_getD_getElem?]
  next => rfl

/-- An index that means an item reads it. -/
theorem Script.getItem_inside {i : Int} {k : Nat} (hk : k < (e.heap.array r).size)
    (hposition : position i (e.heap.array r).size = k) :
    getItem r i e = .ok (e.heap.array r)[k] e := by
  rw [getItem_apply, hposition, if_pos (by omega), Int.toNat_natCast, getD_of_lt hk]

theorem Script.getItem_outside {i : Int}
    (hi : i < -(e.heap.array r).size ∨ (e.heap.array r).size ≤ i) :
    getItem r i e = .ok .void e := by
  rw [getItem_apply, if_neg]
  unfold position
  split <;> omega

theorem Script.getMember_index {key : Value} {i : Int} (hkey : e.heap.keyOf key = .index i) :
    getMember call (.array r) key e = getItem r i e := by
  unfold getMember
  rw [getHeap_bind_apply]
  simp only [hkey]

/-! ## The main result -/

/-- Writes to an array are exact, capped and atomic, and reads agree with them, whatever the host adds
to the engine. The places that they go to are also found on machine words. -/
theorem array_writes_are_exact {e : Engine} {r : ArrayRef} (hr : r.index < e.heap.arrays.size)
    (hcap : e.limits.maxArrayLength < 2 ^ 64) (hw : e.WritesArrays) (host : Host) (fuel : Nat) :
    let cap := e.limits.maxArrayLength
    let items := e.heap.array r
    (∀ w : ArrayWrite, w.Spelled e.heap →
      Settled r e (w.outcome cap items) (w.run (host.call (fuel + 1)) r e)) ∧
    (∀ (w : ArrayWrite) (items' : Array Value) (answer : Value),
      w.outcome cap items = some (items', answer) →
      items'.size ≤ 2 ^ 53 → items'.size ≤ max items.size cap) ∧
    (∀ k ≤ cap, k ≤ 2 ^ 53 → (Value.ofNat k).length? cap = some k) ∧
    (∀ k (hk : k < items.size) (key back : Value),
      e.heap.keyOf key = .index k → e.heap.keyOf back = .index (k - items.size) →
      Script.getMember (host.call (fuel + 1)) (.array r) key e = .ok items[k] e ∧
        Script.getMember (host.call (fuel + 1)) (.array r) back e = .ok items[k] e) ∧
    (∀ (key : Value) (i : Int), e.heap.keyOf key = .index i → i < -items.size ∨ items.size ≤ i →
      Script.getMember (host.call (fuel + 1)) (.array r) key e = .ok .void e) ∧
    (∀ i : Int, i.natAbs < 9 * 10 ^ 15 → e.heap.keyOf (.ofInt i) = .index i) ∧
    (∀ i : Int64, items.size < 2 ^ 63 →
      (wordPosition i items.size).toInt = position i.toInt items.size ∧
      wordResolveIndex i items.size = resolveIndex i.toInt items.size ∧
      wordWriteIndex i items.size cap = writeIndex i.toInt items.size cap ∧
      ∀ v, Script.insertItem r i.toInt v e = (do
        let k ← Script.ofExcept (wordInsertIndex i items.size cap)
        Script.modifyHeap (·.modifyArray r (·.insertIdxIfInBounds k v))) e) ∧
    ∀ j < cap, (UInt64.ofNat j + 1).toNat = j + 1 := by
  intro cap items
  refine ⟨fun w hspelled => ArrayWrite.settled_run hr hcap hw host fuel w hspelled,
    fun w _ _ hout => w.outcome_size_le hout, fun k hk => Value.length?_ofNat hcap hk,
    fun k hk key back hkey hback => ?_, fun key i hkey hi => ?_,
    fun i => e.heap.keyOf_ofInt, fun i hn => ⟨wordPosition_toInt i hn, wordResolveIndex_eq i hn,
      wordWriteIndex_eq i hn cap, fun v => Script.insertItem_word i hn v⟩, fun j hj => ?_⟩
  · rw [Script.getMember_index hkey, Script.getMember_index hback]
    refine ⟨Script.getItem_inside hk (if_neg (by omega)), Script.getItem_inside hk ?_⟩
    rw [position, if_pos (by omega), Int.sub_add_cancel]
  · rw [Script.getMember_index hkey]
    exact Script.getItem_outside hi
  · have hj' : j < 2 ^ 64 - 1 := by omega
    rw [UInt64.toNat_add, UInt64.toNat_ofNat']
    simp only [UInt64.toNat_one]
    omega

/-- An engine with an array of two items and the members for writes. -/
def arrayEngine : Engine where
  limits := { maxArrayLength := 5 }
  heap :=
    { arrays := #[#[.str "a", .str "b"]]
      functions := #[{ body := .native (.array .add) }, { body := .native (.array .insert) },
        { body := .native (.array .erase) }]
      properties := #[{
        getter := some { body := .native (.array .length) }
        setter := some { body := .native (.array .setLength) } }]
      classes := #[{
        name := "array"
        members := ((((∅ : Std.HashMap String Value).insert
          "count" (.property ⟨0⟩)).insert "add" (.function ⟨0⟩)).insert
          "insert" (.function ⟨1⟩)).insert "erase" (.function ⟨2⟩) }] }
  globalScope := ⟨0⟩
  numberClass := ⟨0⟩
  stringClass := ⟨0⟩
  arrayClass := ⟨0⟩
  dictClass := ⟨0⟩

theorem member?_arrayEngine (name : String) :
    arrayEngine.heap.member? arrayEngine.arrayClass name =
      if "erase" == name then some (.function ⟨2⟩)
      else if "insert" == name then some (.function ⟨1⟩)
      else if "add" == name then some (.function ⟨0⟩)
      else if "count" == name then some (.property ⟨0⟩)
      else none := by
  have hown : arrayEngine.heap.member? arrayEngine.arrayClass name =
      arrayEngine.heap.ownMember? name ⟨0⟩ := by
    simp [Heap.member?, Heap.ancestry, Heap.classObject, arrayEngine]
  rw [hown]
  change (((((∅ : Std.HashMap String Value).insert _ _).insert _ _).insert _ _).insert
    _ _)[name]? = _
  simp only [Std.HashMap.getElem?_insert, Std.HashMap.getElem?_empty]

theorem writesArrays_arrayEngine : arrayEngine.WritesArrays := by
  refine ⟨⟨⟨0⟩, { body := .native (.array .setLength) }, member?_arrayEngine "count", rfl, rfl⟩,
    fun name which h => ?_⟩
  simp only [List.mem_cons, Prod.mk.injEq, List.not_mem_nil, or_false] at h
  rcases h with ⟨rfl, rfl⟩ | ⟨rfl, rfl⟩ | ⟨rfl, rfl⟩
  · exact ⟨⟨0⟩, member?_arrayEngine "add", rfl⟩
  · exact ⟨⟨1⟩, member?_arrayEngine "insert", rfl⟩
  · exact ⟨⟨2⟩, member?_arrayEngine "erase", rfl⟩

/-- The last item of two is erased through the index -1. -/
theorem array_writes_are_exact_arrayEngine :
    ∃ e', (ArrayWrite.erase (.ofInt (-1))).run (callWithin 1) ⟨0⟩ arrayEngine = .ok .void e' ∧
      e'.heap.array ⟨0⟩ = #[.str "a"] := by
  obtain ⟨hrun, -⟩ := array_writes_are_exact (e := arrayEngine) (r := ⟨0⟩) (by decide) (by decide)
    writesArrays_arrayEngine .standard 0
  have houtcome : (ArrayWrite.erase (.ofInt (-1))).outcome arrayEngine.limits.maxArrayLength
      (arrayEngine.heap.array ⟨0⟩) = some (#[.str "a"], .void) := by
    decide +kernel
  have hsettled := hrun (.erase (.ofInt (-1))) trivial
  rw [houtcome] at hsettled
  obtain ⟨e', hres, hover⟩ := hsettled
  exact ⟨e', hres, hover.array⟩

end ScriptEngine
