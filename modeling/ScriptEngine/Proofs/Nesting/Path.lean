import Mathlib.Tactic
import ScriptEngine.Value.Render

/-!
# Paths into arrays and dictionaries

An array or dictionary is a container. A path into a value goes through its containers, link by
link, and `Heap.at?` is what stands at its end. What stands at the end of some path is a part of the
value (`Heap.HasPart`).

Paths see a heap only through the containers on the way. So does the text of a value: where two heaps
agree on the containers of a value (`Heap.SameWithin`), its paths lead to the same ends
(`SameWithin.at?_eq`) and its text is the same (`SameWithin.text_eq`).
-/

namespace ScriptEngine

/-- The way from a container to something in it. -/
inductive Link where
  | item (i : Nat)
  | entry (key : String)
  deriving DecidableEq

/-- Whether a value is an array or a dictionary. -/
def Value.isContainer : Value → Bool
  | .array _ | .dict _ => true
  | _ => false

namespace Heap

/-- What a container has behind a link. -/
def follow? (h : Heap) : Value → Link → Option Value
  | .array r, .item i => (h.array r)[i]?
  | .dict r, .entry key => (h.dict r)[key]?
  | _, _ => none

/-- What stands at the end of a path. -/
def at? (h : Heap) (v : Value) : List Link → Option Value
  | [] => some v
  | link :: path => (h.follow? v link).bind fun w => h.at? w path

/-- A value is a part of another one. -/
def HasPart (h : Heap) (v w : Value) : Prop :=
  ∃ path, h.at? v path = some w

variable {h h' : Heap} {v w x : Value} {link : Link}

@[simp] theorem at?_nil (h : Heap) (v : Value) : h.at? v [] = some v := rfl

@[simp] theorem at?_cons (h : Heap) (v : Value) (link : Link) (path : List Link) :
    h.at? v (link :: path) = (h.follow? v link).bind fun w => h.at? w path := rfl

theorem at?_append (h : Heap) (v : Value) (p q : List Link) :
    h.at? v (p ++ q) = (h.at? v p).bind fun w => h.at? w q := by
  induction p generalizing v with
  | nil => rfl
  | cons link p ih => cases hw : h.follow? v link <;> simp [hw, ih]

theorem HasPart.refl (h : Heap) (v : Value) : h.HasPart v v :=
  ⟨[], rfl⟩

theorem HasPart.head (link : Link) (hlink : h.follow? v link = some w) (hw : h.HasPart w x) :
    h.HasPart v x := by
  obtain ⟨path, hpath⟩ := hw
  exact ⟨link :: path, by rw [at?_cons, hlink, Option.bind_some, hpath]⟩

theorem HasPart.trans (hv : h.HasPart v w) (hw : h.HasPart w x) : h.HasPart v x := by
  obtain ⟨p, hp⟩ := hv
  obtain ⟨q, hq⟩ := hw
  exact ⟨p ++ q, by rw [at?_append, hp, Option.bind_some, hq]⟩

/-- A value with nothing in it has no part but itself. -/
theorem HasPart.eq_of_empty (hv : ∀ link, h.follow? v link = none) (hw : h.HasPart v w) : w = v := by
  obtain ⟨path, hpath⟩ := hw
  cases path with
  | nil => exact (Option.some.inj hpath).symm
  | cons link path =>
    rw [at?_cons, hv] at hpath
    cases hpath

/-! ## Heaps that agree on a value -/

/-- Two heaps have the same contents in the containers of a value. -/
structure SameWithin (h h' : Heap) (v : Value) : Prop where
  array : ∀ r, h.HasPart v (.array r) → h'.array r = h.array r
  dict : ∀ r, h.HasPart v (.dict r) → h'.dict r = h.dict r

namespace SameWithin

theorem part (hs : h.SameWithin h' v) (hw : h.HasPart v w) : h.SameWithin h' w :=
  ⟨fun r hr => hs.array r (hw.trans hr), fun r hr => hs.dict r (hw.trans hr)⟩

theorem follow?_eq (hs : h.SameWithin h' v) (link : Link) : h'.follow? v link = h.follow? v link := by
  cases v with
  | array r => cases link <;> simp only [follow?, hs.array r (.refl h _)]
  | dict r => cases link <;> simp only [follow?, hs.dict r (.refl h _)]
  | _ => rfl

theorem at?_eq (hs : h.SameWithin h' v) (path : List Link) : h'.at? v path = h.at? v path := by
  induction path generalizing v with
  | nil => rfl
  | cons link path ih =>
    rw [at?_cons, at?_cons, hs.follow?_eq]
    cases hw : h.follow? v link with
    | none => rfl
    | some w => exact ih (hs.part (.head link hw (.refl h w)))

/-- The text of a value depends on its containers and on the classes of the heap. -/
theorem render_eq (hs : h.SameWithin h' v) (hclasses : h'.classes = h.classes) (quoted : Bool)
    (room : Nat) : h'.render quoted room v = h.render quoted room v := by
  induction room generalizing v with
  | zero =>
    cases v with
    | array r => simp only [render, hs.array r (.refl h _)]
    | dict r => simp only [render, hs.dict r (.refl h _)]
    | classObj r =>
      have hclass : h'.classObject r = h.classObject r := by rw [classObject, hclasses, classObject]
      simp only [render, hclass]
    | _ => rfl
  | succ room ih =>
    cases v with
    | array r =>
      have hitems : (h.array r).toList.map (h'.render quoted room) =
          (h.array r).toList.map (h.render quoted room) := by
        refine List.map_congr_left fun item hitem => ?_
        obtain ⟨i, hi⟩ := List.getElem?_of_mem hitem
        rw [Array.getElem?_toList] at hi
        exact ih (hs.part (.head (.item i) hi (.refl h item)))
      simp only [render, hs.array r (.refl h _), hitems]
    | dict r =>
      have hparts : ((h.dict r).toList.map fun p => Text.quote p.1 ++ "=>" ++
            h'.render quoted room p.2) =
          (h.dict r).toList.map fun p => Text.quote p.1 ++ "=>" ++ h.render quoted room p.2 := by
        refine List.map_congr_left fun p hp => ?_
        have hentry : (h.dict r)[p.1]? = some p.2 :=
          Std.TreeMap.mem_toList_iff_getElem?_eq_some.1 hp
        rw [ih (hs.part (.head (.entry p.1) hentry (.refl h p.2)))]
      simp only [render, hs.dict r (.refl h _), hparts]
    | classObj r =>
      have hclass : h'.classObject r = h.classObject r := by rw [classObject, hclasses, classObject]
      simp only [render, hclass]
    | _ => rfl

end SameWithin

/-! ## Writes -/

theorem array_modifyArray {r : ArrayRef} (hr : r.index < h.arrays.size)
    (f : Array Value → Array Value) : (h.modifyArray r f).array r = f (h.array r) := by
  simp only [array, modifyArray, Array.getD_eq_getD_getElem?, Array.getElem?_modify, if_true,
    Array.getElem?_eq_getElem hr, Option.map_some, Option.getD_some]

theorem array_modifyArray_ne {r s : ArrayRef} (hs : s ≠ r) (f : Array Value → Array Value) :
    (h.modifyArray r f).array s = h.array s := by
  have hne : r.index ≠ s.index := fun heq => hs (by cases r; cases s; simp_all)
  simp [modifyArray, array, Array.getD_eq_getD_getElem?, Array.getElem?_modify, hne]

/-- A write to an array changes nothing in a value that the array is no part of. -/
theorem sameWithin_modifyArray {r : ArrayRef} (f : Array Value → Array Value)
    (hr : ¬ h.HasPart v (.array r)) : h.SameWithin (h.modifyArray r f) v where
  array s hs := by
    have hne : s ≠ r := fun heq => hr (heq ▸ hs)
    exact array_modifyArray_ne hne f
  dict _ _ := rfl

end Heap

end ScriptEngine
