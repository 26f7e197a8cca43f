import ScriptEngine.Access.Class
import ScriptEngine.Access.Variable
import ScriptEngine.Text.Search

/-!
# Members of values

A member is selected by a key: a whole number is an index, everything else a name. Numbers,
strings, arrays and dictionaries get their named members from the class of their kind. On arrays
and strings, names that spell a whole number count as indices too, and negative indices count
from the end.
-/

namespace ScriptEngine

/-- What selects a member. -/
inductive Key where
  | index (i : Int)
  | name (s : String)
  deriving DecidableEq, Inhabited

namespace Key

/-- The key as a name. -/
def toName : Key → String
  | .index i => toString i
  | .name s => s

/-- The key as an index: a name counts if it spells a whole number of 64 bits. -/
def toIndex? : Key → Option Int
  | .index i => some i
  | .name s => readInteger? (Text.trim s.toList)

end Key

/-- The key that a value is: whole numbers below 9·10¹⁵ in magnitude are indices. -/
def Heap.keyOf (h : Heap) (v : Value) : Key :=
  match v with
  | .number x =>
    if x.isWhole && x.truncate.natAbs < 9 * Nat.pow 10 15 then .index x.truncate else .name x.format
  | v => .name (h.text v)

/-! ## Sequences -/

/-- The place of a possibly negative index in a sequence of a given length. -/
def resolveIndex (i : Int) (length : Nat) : Option Nat :=
  let j := if i < 0 then i + length else i
  if 0 ≤ j ∧ j < length then some j.toNat else none

/-- The place that a write at a possibly negative index goes to in an array of a given length,
which may lie behind its end but not beyond the cap. -/
def writeIndex (i : Int) (length cap : Nat) : Except RuntimeFault Nat :=
  let j := if i < 0 then i + length else i
  if j < 0 then .error (.arrayIndex i)
  else if cap ≤ j.toNat then .error (.arrayTooLong cap)
  else .ok j.toNat

/-- The array with a new length: cut off, or filled up with void. -/
def resizeItems (items : Array Value) (length : Nat) : Array Value :=
  if items.size < length then items ++ Array.replicate (length - items.size) Value.void
  else items.take length

/-- The array with a value at an index, filled up with void before it if need be. -/
def storeItem (items : Array Value) (index : Nat) (v : Value) : Array Value :=
  if index < items.size then items.setIfInBounds index v
  else (items ++ Array.replicate (index - items.size) Value.void).push v

/-- The length that a number denotes for an array: between zero and the cap. -/
def lengthOf (x : Number) (cap : Nat) : Except RuntimeFault Nat :=
  if Number.zero.le x && x.le (.ofNat cap) then .ok x.truncate.toNat
  else .error (.arrayTooLong cap)

namespace Script

/-- The item of an array at an index; void outside of it. -/
def getItem (r : ArrayRef) (i : Int) : Script Value := do
  let items := (← getHeap).array r
  return ((resolveIndex i items.size).bind (items[·]?)).getD .void

/-- Writes an item of an array. -/
def setItem (r : ArrayRef) (i : Int) (v : Value) : Script Unit := do
  let e ← get
  let index ← ofExcept (writeIndex i (e.heap.array r).size e.limits.maxArrayLength)
  modifyHeap (·.modifyArray r (storeItem · index v))

/-- Gives an array a new length. -/
def setLength (r : ArrayRef) (x : Number) : Script Unit := do
  let length ← ofExcept (lengthOf x (← get).limits.maxArrayLength)
  modifyHeap (·.modifyArray r (resizeItems · length))

/-- The character of a string at an index, as a string. -/
def getCharacter (s : String) (i : Int) : Script Value :=
  match (resolveIndex i s.length).bind (Text.charAt? s) with
  | some c => return .str c.toString
  | none => raise (.stringIndex i)

/-! ## Primitive values -/

/-- The class that gives a primitive value its members. -/
def prototype? (v : Value) : Script (Option ClassRef) := do
  let e ← get
  match v with
  | .number _ => return some e.numberClass
  | .str _ => return some e.stringClass
  | .array _ => return some e.arrayClass
  | .dict _ => return some e.dictClass
  | _ => return none

/-- The named member of the class of a primitive value. -/
def prototypeMember? (v : Value) (name : String) : Script (Option Value) := do
  let h ← getHeap
  return (← prototype? v).bind (h.member? · name)

/-- The named member of a primitive value: functions and properties are bound to it. -/
def boundMember? (call : Invoke) (v : Value) (name : String) : Script (Option Value) := do
  match ← prototypeMember? v name with
  | some (.function r) => some <$> bindFunction r v
  | some (.property r) => some <$> readBound call r v
  | found => return found

/-- Reads a named member of a number, a string or an array. -/
def getNamed (call : Invoke) (v : Value) (name : String) : Script Value := do
  match ← boundMember? call v name with
  | some found => return found
  | none =>
    match v, (Key.name name).toIndex? with
    | .array r, some i => getItem r i
    | .str s, some i => getCharacter s i
    | v, _ => raise (.missingMember name v.kind.name)

/-- Reads a member of a dictionary: its length, an entry, or a member of its class. -/
def getEntry (call : Invoke) (r : DictRef) (name : String) : Script Value := do
  let entries := (← getHeap).dict r
  if name = "length" then return .ofNat entries.size
  else
    match entries[name]? with
    | some v => return v
    | none => return (← boundMember? call (.dict r) name).getD .undefined

/-- Writes a named member through a property of the class of a primitive value. -/
def setNamed (call : Invoke) (v : Value) (name : String) (x : Value) : Script Unit := do
  match ← prototypeMember? v name with
  | some (.property r) => writeBound call r v x
  | _ => raise (.unwritableMember name v.kind)

/-! ## All values -/

/-- Reads a member of a value. -/
def getMember (call : Invoke) (v key : Value) : Script Value := do
  let key := (← getHeap).keyOf key
  match v, key with
  | .array r, .index i => getItem r i
  | .array r, .name s =>
    if s = "length" then return .ofNat ((← getHeap).array r).size else getNamed call v s
  | .dict r, key => getEntry call r key.toName
  | .str s, .index i => getCharacter s i
  | .str _, .name s | .number _, .name s => getNamed call v s
  | .number _, .index _ => raise (.missingMember key.toName v.kind.name)
  | .scope s, key => getVariable call s key.toName
  | .classObj c, key => getField call c key.toName
  | v, key => raise (.unreadableMember key.toName v.kind)

/-- Writes a member of a value. -/
def setMember (call : Invoke) (v key x : Value) : Script Unit := do
  let key := (← getHeap).keyOf key
  match v with
  | .dict r => modifyHeap (·.modifyDict r (·.insert key.toName x))
  | .array r =>
    match key.toIndex? with
    | some i => setItem r i x
    | none =>
      if key.toName = "length" then setLength r (← toNumber x)
      else setNamed call v key.toName x
  | .number _ | .str _ => setNamed call v key.toName x
  | .scope s => setVariable call s key.toName x
  | .classObj c => setField call c key.toName x
  | v => raise (.unwritableMember key.toName v.kind)

/-- Removes a member of a value. -/
def removeMember (v key : Value) : Script Unit := do
  let h ← getHeap
  let key := h.keyOf key
  match v with
  | .dict r => modifyHeap (·.modifyDict r (·.erase key.toName))
  | .array r =>
    match key.toIndex? with
    | some i =>
      match resolveIndex i (h.array r).size with
      | some index => modifyHeap (·.modifyArray r (·.eraseIdxIfInBounds index))
      | none => return ()
    | none => raise (.undeletableMember key.toName v.kind)
  | .scope s => removeVariable s key.toName
  | .classObj c => modifyHeap (·.eraseMember c key.toName)
  | v => raise (.undeletableMember key.toName v.kind)

end Script

end ScriptEngine
