import ScriptEngine.Native.Sort
import ScriptEngine.Native.String

/-!
# Members of arrays

A member that fails leaves the array as it was. `assign` takes over the items of an array, the
keys and values of a dictionary, or a single value; `assignStruct` does so with a deep copy,
which shares no array or dictionary with its source and exists only if the source does not
contain itself.
-/

namespace ScriptEngine

/-- The items that an array assigned from a value gets. -/
def Heap.flatten (h : Heap) : Value → Array Value
  | .void | .undefined => #[]
  | .array r => h.array r
  | .dict r => ((h.dict r).toList.flatMap fun (key, v) => [.str key, v]).toArray
  | v => #[v]

namespace Script

/-- The receiver of a member of arrays. -/
def arrayReceiver (name : String) : Value → Script ArrayRef
  | .array r => return r
  | _ => raise (.arraysOnly name)

/-- A copy of a value in which every array and dictionary is new. `ancestors` are the containers
that the value stands in; none of them may occur in it. The fuel bounds their number. -/
def deepClone : Nat → (ancestors : List Value) → Value → Script Value
  | 0, _, _ => throw .exhausted
  | fuel + 1, ancestors, v => do
    match v with
    | .array r =>
      if ancestors.contains v then raise .selfContaining
      else
        let items := (← getHeap).array r
        newArray (← items.mapM (deepClone fuel (v :: ancestors)))
    | .dict r =>
      if ancestors.contains v then raise .selfContaining
      else
        let entries := ((← getHeap).dict r).toList
        let copies ← entries.mapM fun (key, item) => do
          let copy ← deepClone fuel (v :: ancestors) item
          return (key, copy)
        newDict (Std.TreeMap.ofList copies)
    | v => return v

/-- A deep copy of a value. A chain of containers that does not repeat is no longer than the
number of containers in the heap. -/
def deepCopy (v : Value) : Script Value := do
  let h ← getHeap
  deepClone (h.arrays.size + h.dicts.size + 2) [] v

/-- Inserts a value before an index; negative indices count from the end. -/
def insertItem (r : ArrayRef) (requested : Int) (v : Value) : Script Unit := do
  let e ← get
  let length := (e.heap.array r).size
  let index := if requested < 0 then requested + length else requested
  if index < 0 ∨ (length : Int) < index then raise (.insertIndex requested)
  if e.limits.maxArrayLength ≤ length then raise (.arrayTooLong e.limits.maxArrayLength)
  modifyHeap (·.modifyArray r (·.insertIdxIfInBounds index.toNat v))

/-- Removes the item at an index; negative indices count from the end. -/
def eraseItem (r : ArrayRef) (requested : Int) : Script Unit := do
  match resolveIndex requested ((← getHeap).array r).size with
  | some index => modifyHeap (·.modifyArray r (·.eraseIdxIfInBounds index))
  | none => raise (.eraseIndex requested)

/-- The first index at or behind `start` of an item that strictly equals a value. -/
def findItem? (items : List Value) (target : Value) (start : Nat) : Option Nat :=
  ((items.drop start).findIdx? (·.strictEquals target)).map (· + start)

/-- Sorts an array. While the order is worked out the array counts as empty; if it cannot be, the
items are put back. -/
def sortArray (r : ArrayRef) (mode : String) : Script Unit := do
  let items := (← getHeap).array r
  modifyHeap (·.modifyArray r fun _ => #[])
  let h ← getHeap
  let sorted := match SortMode.ofText? mode with
    | some m => h.sortValues m items.toList
    | none => .error (.sortMode mode)
  match sorted with
  | .ok sorted => modifyHeap (·.modifyArray r fun _ => sorted.toArray)
  | .error cause =>
    modifyHeap (·.modifyArray r fun _ => items)
    raise cause

/-- The texts of the items with a separator between them; void items can be left out. -/
def joinItems (r : ArrayRef) (sep : String) (skipVoid : Bool) : Script String := do
  let h ← getHeap
  let items := (h.array r).toList.filter fun v => !(skipVoid && v.isVoid)
  return Text.join sep (items.map h.text)

/-- The pieces of a text between separators; empty ones can be left out. -/
def splitText (sep text : String) (skipEmpty : Bool) : List Value :=
  ((Text.split sep.toList text.toList).filter fun piece => !(skipEmpty && piece.isEmpty)).map
    fun piece => .str (String.ofList piece)

/-- Runs a member of arrays. -/
def runArray (receiver : Value) (args : Array Value) : ArrayMember → Script Value
  | .length => do
    let r ← arrayReceiver "length" receiver
    return .ofNat ((← getHeap).array r).size
  | .setLength => do
    let x ← toNumber (argument args 0)
    if x.lt .zero then raise .negativeLength
    setLength (← arrayReceiver "length" receiver) x
    return .void
  | .add => do
    let r ← arrayReceiver "add" receiver
    let index := ((← getHeap).array r).size
    setItem r index (argument args 0)
    return .ofNat index
  | .insert => do
    let r ← arrayReceiver "insert" receiver
    insertItem r (← toInt (argument args 0)) (argument args 1)
    return .void
  | .erase => do
    let r ← arrayReceiver "erase" receiver
    eraseItem r (← toInt (argument args 0))
    return .void
  | .remove => do
    let r ← arrayReceiver "remove" receiver
    let target := argument args 0
    if (args[1]?.map Value.truthy).getD true then
      modifyHeap (·.modifyArray r (·.filter (!·.strictEquals target)))
    else
      match findItem? ((← getHeap).array r).toList target 0 with
      | some index => modifyHeap (·.modifyArray r (·.eraseIdxIfInBounds index))
      | none => pure ()
    return .void
  | .find => do
    let r ← arrayReceiver "find" receiver
    let items := ((← getHeap).array r).toList
    let start ← toInt (argument args 1)
    let start := if start < 0 then start + items.length else start
    match findItem? items (argument args 0) start.toNat with
    | some index => return .ofNat index
    | none => return .ofInt (-1)
  | .clear => do
    let r ← arrayReceiver "clear" receiver
    modifyHeap (·.modifyArray r fun _ => #[])
    return .void
  | .reverse => do
    let r ← arrayReceiver "reverse" receiver
    modifyHeap (·.modifyArray r (·.reverse))
    return .void
  | .sort => do
    let r ← arrayReceiver "sort" receiver
    let mode := argument args 0
    sortArray r (← if mode.isVoid then pure "+" else textOf mode)
    return .void
  | .join => do
    let r ← arrayReceiver "join" receiver
    let sep ← textOf (argument args 0)
    return .str (← joinItems r sep (argument args 2).truthy)
  | .split => do
    let sep ← textOf (argument args 0)
    let text ← textOf (argument args 1)
    newArray (splitText sep text (argument args 3).truthy).toArray
  | .assign => do
    let r ← arrayReceiver "assign" receiver
    modifyHeap fun h =>
      let items := h.flatten (argument args 0)
      h.modifyArray r fun _ => items
    return .void
  | .assignStruct => do
    let r ← arrayReceiver "assignStruct" receiver
    let copy ← deepCopy (argument args 0)
    modifyHeap fun h =>
      let items := h.flatten copy
      h.modifyArray r fun _ => items
    return .void

end Script

end ScriptEngine
