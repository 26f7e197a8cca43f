import ScriptEngine.Value.Render

/-!
# Sorting values

The six orders an array can be sorted by. Every sort is stable: values that the order does not
tell apart keep their places, in the descending orders too.
-/

namespace ScriptEngine

/-- How an array is sorted. -/
inductive SortMode where
  | natural
  | naturalDown
  | numeric
  | numericDown
  | textual
  | textualDown
  deriving DecidableEq, Inhabited

namespace SortMode

/-- The mode that a text names. -/
def ofText? : String → Option SortMode
  | "+" => some .natural
  | "-" => some .naturalDown
  | "0" => some .numeric
  | "9" => some .numericDown
  | "a" => some .textual
  | "z" => some .textualDown
  | _ => none

end SortMode

/-- The rank of the kind of a value: void, numbers, strings, objects. -/
def Value.rank : Value → Nat
  | .void | .undefined => 0
  | .number _ => 1
  | .str _ => 2
  | _ => 3

/-- The natural order: by rank, numbers by the total order, strings by code points. -/
def Value.naturalCompare (a b : Value) : Ordering :=
  match a, b with
  | .number x, .number y => x.totalCompare y
  | .str s, .str t => compare s t
  | a, b => compare a.rank b.rank

/-- Sorts values by keys, ascending or descending. -/
def sortByKey {κ : Type} (order : κ → κ → Ordering) (descending : Bool) (keyed : List (κ × Value)) :
    List Value :=
  let le (a b : κ × Value) : Bool :=
    if descending then (order b.1 a.1).isLE else (order a.1 b.1).isLE
  (keyed.mergeSort le).map (·.2)

/-- The values sorted by a mode. A numeric sort fails if a value has no number. -/
def Heap.sortValues (h : Heap) (mode : SortMode) (items : List Value) :
    Except RuntimeFault (List Value) :=
  match mode with
  | .natural => .ok (sortByKey Value.naturalCompare false (items.map fun v => (v, v)))
  | .naturalDown => .ok (sortByKey Value.naturalCompare true (items.map fun v => (v, v)))
  | .numeric => do
    let keys ← items.mapM Value.toNumber
    return sortByKey Number.totalCompare false (keys.zip items)
  | .numericDown => do
    let keys ← items.mapM Value.toNumber
    return sortByKey Number.totalCompare true (keys.zip items)
  | .textual => .ok (sortByKey compare false (items.map fun v => (h.text v, v)))
  | .textualDown => .ok (sortByKey compare true (items.map fun v => (h.text v, v)))

end ScriptEngine
