import ScriptEngine.Access.Class
import ScriptEngine.Proofs.Class.Hierarchy
import ScriptEngine.Proofs.Tame

/-!
# The fields of a new instance

A new instance has one own member for each field that its class or an ancestor declares. Where
several of them declare a field, the heap lets the class that comes later overwrite the ones before,
going upwards; so the field that stays is the one that a search finds which takes the parents of each
class from the last to the first (`getElem?_defaultFields`).

Members are searched for in the other order. Both searches find the same value of a field if no
class inherits the field with different values from two of its parents (`Heap.Unambiguous`), which
holds under single inheritance, and for fields that one class alone declares.

Main statement: `new_instance_has_declared_fields`.
-/

namespace ScriptEngine

namespace Heap

variable {h : Heap} {c p d d' : ClassRef} {name : String}

/-- The value that a class declares for a field of new instances. -/
def declared? (h : Heap) (name : String) (c : ClassRef) : Option Value :=
  (h.classObject c).defaults[name]?

/-! ## The table of a new instance -/

/-- Entries that are inserted win over those of the table. -/
theorem getElem?_insertMany_toList (m t : Std.HashMap String Value) (name : String) :
    (m.insertMany t.toList)[name]? = t[name]?.or m[name]? := by
  rcases ht : t[name]? with _ | v
  · rw [Std.HashMap.getElem?_insertMany_list_of_contains_eq_false, Option.none_or]
    rw [Std.HashMap.map_fst_toList_eq_keys, Std.HashMap.contains_keys,
      Std.HashMap.contains_eq_isSome_getElem?, ht, Option.isSome_none]
  · exact Std.HashMap.getElem?_insertMany_list_of_mem (beq_self_eq_true name)
      Std.HashMap.distinct_keys_toList (Std.HashMap.mem_toList_iff_getElem?_eq_some.2 ht)

theorem getElem?_foldl_insertMany (list : List ClassRef) (m : Std.HashMap String Value) :
    (list.foldl (fun fields d => fields.insertMany (h.classObject d).defaults.toList) m)[name]? =
      (list.reverse.findSome? (h.declared? name)).or m[name]? := by
  induction list generalizing m with
  | nil => rfl
  | cons d list ih =>
    rw [List.foldl_cons, ih, getElem?_insertMany_toList, List.reverse_cons, List.findSome?_append,
      List.findSome?_singleton, Option.or_assoc, declared?]

/-- The field of a new instance is the one that is found with the last parent first. -/
theorem getElem?_defaultFields :
    (h.defaultFields c)[name]? = (h.ancestryUp c).reverse.findSome? (h.declared? name) := by
  rw [defaultFields, getElem?_foldl_insertMany]
  simp

/-! ## Both orders -/

theorem reaches_reverse : Reaches (fun c => (h.parents c).reverse) = Reaches h.parents := by
  simp only [Reaches, List.mem_reverse]

/-- A field that no class below a class inherits with different values from two parents. -/
def Unambiguous (h : Heap) (name : String) (c : ClassRef) : Prop :=
  ∀ a, Reaches h.parents c a → h.declared? name a = none →
    ∀ p ∈ h.parents a, ∀ p' ∈ h.parents a, ∀ d d', Finds h.parents (h.declared? name) p d →
      Finds h.parents (h.declared? name) p' d' → h.declared? name d = h.declared? name d'

/-- Both orders find the same value of an unambiguous field. -/
theorem Unambiguous.eq_of_finds (hc : h.Unambiguous name c) (hordered : h.Ordered)
    (hup : Finds (fun c => (h.parents c).reverse) (h.declared? name) p d') (hp : Reaches h.parents c p) :
    ∀ d, Finds h.parents (h.declared? name) p d → h.declared? name d = h.declared? name d' := by
  induction hup with
  | here hsome =>
    intro d hd
    rw [(finds_of_some hsome).1 hd]
  | @behind p q d' before after hnone hnext _ hq ih =>
    intro d hd
    obtain ⟨before', q', after', hparents, -, hd⟩ := (finds_of_none hnone).1 hd
    have hqmem : q ∈ h.parents p := by
      rw [← List.mem_reverse, hnext]
      simp
    have hqmem' : q' ∈ h.parents p := by
      rw [hparents]
      simp
    -- Something is found from `q` in the order of members too, and it is the same value.
    have hreach : Reaches h.parents q d' := by
      rw [← reaches_reverse]
      exact hq.reaches
    obtain ⟨d₁, hd₁⟩ := exists_finds (traverses_ancestry hordered) hordered hreach hq.ne_none
    rw [hc p hp hnone q' hqmem' q hqmem d d₁ hd hd₁]
    exact ih (hp.tail hqmem) d₁ hd₁

end Heap

/-! ## New instances -/

namespace Script

/-- A computation that leaves the engine as it is, if it gives a result. -/
def Still {α : Type} (m : Script α) : Prop :=
  ∀ e a e', m e = .ok a e' → e' = e

namespace Still

variable {α β : Type}

theorem pure (a : α) : Still (pure a : Script α) := by
  intro e b e' h
  cases h
  rfl

theorem raise (cause : RuntimeFault) : Still (raise cause : Script α) := by
  intro e b e' h
  cases h

theorem getHeap : Still getHeap := by
  intro e b e' h
  cases h
  rfl

theorem bind {m : Script α} {k : α → Script β} (hm : Still m) (hk : ∀ a, Still (k a)) :
    Still (m >>= k) := by
  intro e b e' h
  rw [bind_apply] at h
  rcases hme : m e with ⟨a, e₁⟩ | ⟨f, e₁⟩ <;> rw [hme] at h
  · obtain rfl := hm e a e₁ hme
    exact hk a e₁ b e' h
  · cases h

theorem ofExcept (x : Except RuntimeFault α) : Still (ofExcept x) := by
  cases x with
  | error cause => exact raise cause
  | ok a => exact pure a

end Still

/-- Host data is made without a change of the engine. -/
theorem still_construct (args : Array Value) (k : HostConstructor) : Still (construct args k) := by
  cases k with
  | counter =>
    unfold construct
    dsimp only
    split
    · exact ((Still.ofExcept _).bind fun _ => .pure _).bind fun _ => .pure _
    · exact .pure _
  | label => exact (Still.getHeap.bind fun _ => .pure _).bind fun _ => .pure _
  | refuse => exact .raise _

/-- What a class makes is a new object in the heap, and nothing else. -/
theorem createInstance_eq_ok {c : ClassRef} {args : Array Value} {v : Value} {e e' : Engine}
    (h : createInstance c args e = .ok v e') :
    ∃ payload, v = .classObj (e.heap.newInstance (e.heap.definingClass c) payload).1 ∧
      e' = { e with heap := (e.heap.newInstance (e.heap.definingClass c) payload).2 } := by
  have hpayload : ∀ o : ClassObject, Still (o.constructor.mapM (construct args)) := by
    intro o
    cases o.constructor with
    | none => exact .pure _
    | some k => exact (still_construct args k).bind fun _ => .pure _
  unfold createInstance instantiate at h
  rw [getHeap_bind_apply] at h
  by_cases hinst : (e.heap.classObject (e.heap.definingClass c)).instantiable = true
  · rw [if_pos hinst] at h
    beta_reduce at h
    rw [bind_apply] at h
    rcases hmade : ((e.heap.classObject (e.heap.definingClass c)).constructor.mapM
      (construct args)) e with ⟨payload, e₁⟩ | ⟨f, e₁⟩ <;> rw [hmade] at h
    · obtain rfl := hpayload _ _ _ _ hmade
      cases h
      exact ⟨payload, rfl, rfl⟩
    · cases h
  · rw [if_neg hinst] at h
    cases h

/-- A class without a constructor of host data makes instances, if it can have any. -/
theorem createInstance_of_instantiable {c : ClassRef} (args : Array Value) {e : Engine}
    (hinst : (e.heap.classObject (e.heap.definingClass c)).instantiable = true)
    (hconstructor : (e.heap.classObject (e.heap.definingClass c)).constructor = none) :
    ∃ v e', createInstance c args e = .ok v e' := by
  unfold createInstance instantiate
  rw [getHeap_bind_apply]
  dsimp only
  rw [hinst, hconstructor]
  exact ⟨_, _, rfl⟩

end Script

theorem Heap.ownMember?_newInstance {h : Heap} {c : ClassRef} {payload : Option Payload}
    (name : String) : (h.newInstance c payload).2.ownMember? name (h.newInstance c payload).1 =
      (h.defaultFields c)[name]? := by
  unfold newInstance ownMember?
  dsimp only
  rw [classObject_newClass, if_pos rfl]

/-- The own members of a new instance are the fields that its class and all ancestors declare, each
with the value that the search finds which takes the last parent of each class first. It is the
value that the search for members finds, if the field is unambiguous. -/
theorem new_instance_has_declared_fields {e : Engine} (hordered : e.heap.Ordered) (c : ClassRef)
    (args : Array Value) :
    ((e.heap.classObject (e.heap.definingClass c)).instantiable = true →
      (e.heap.classObject (e.heap.definingClass c)).constructor = none →
      ∃ v e', Script.createInstance c args e = .ok v e') ∧
    ∀ v e', Script.createInstance c args e = .ok v e' → ∃ o, v = .classObj o ∧ ∀ name,
      (e'.heap.ownMember? name o = none ↔
        ∀ a, Reaches e.heap.parents (e.heap.definingClass c) a → e.heap.declared? name a = none) ∧
      (∀ d, Finds (fun a => (e.heap.parents a).reverse) (e.heap.declared? name)
          (e.heap.definingClass c) d → e'.heap.ownMember? name o = e.heap.declared? name d) ∧
      (e.heap.Unambiguous name (e.heap.definingClass c) →
        ∀ d, Finds e.heap.parents (e.heap.declared? name) (e.heap.definingClass c) d →
          e'.heap.ownMember? name o = e.heap.declared? name d) := by
  refine ⟨Script.createInstance_of_instantiable args, fun v e' h => ?_⟩
  obtain ⟨payload, rfl, rfl⟩ := Script.createInstance_eq_ok h
  refine ⟨_, rfl, fun name => ?_⟩
  generalize e.heap.definingClass c = c
  have hup := Heap.traverses_ancestryUp hordered
  have holder := Heap.older_reverse hordered
  have hlast : ∀ d, Finds (fun a => (e.heap.parents a).reverse) (e.heap.declared? name) c d →
      (e.heap.newInstance c payload).2.ownMember? name (e.heap.newInstance c payload).1 =
        e.heap.declared? name d := by
    intro d hd
    obtain ⟨v, hv⟩ := Option.ne_none_iff_exists'.1 hd.ne_none
    rw [Heap.ownMember?_newInstance, Heap.getElem?_defaultFields, hv]
    exact (findSome?_traversal hup holder c v).2 ⟨d, hd, hv⟩
  refine ⟨?_, hlast, fun hclear d hd => ?_⟩
  · rw [Heap.ownMember?_newInstance, Heap.getElem?_defaultFields, ← Heap.reaches_reverse]
    exact findSome?_traversal_eq_none hup holder c
  · have hreach : Reaches (fun a => (e.heap.parents a).reverse) c d := by
      rw [Heap.reaches_reverse]
      exact hd.reaches
    obtain ⟨d', hd'⟩ := exists_finds hup holder hreach hd.ne_none
    rw [hlast d' hd', hclear.eq_of_finds hordered hd' .refl d hd]

/-- A class with two parents, which declare different values for the field `size`. The first one
also declares `name`. -/
def twoParents : Engine where
  limits := {}
  heap :=
    { classes := #[
        { name := "First", defaults := (({} : Std.HashMap String Value).insert "size"
          (.str "small")).insert "name" (.str "first") },
        { name := "Second", defaults := ({} : Std.HashMap String Value).insert "size" (.str "large") },
        { name := "Both", parents := [⟨0⟩, ⟨1⟩], instantiable := true }] }
  globalScope := ⟨0⟩
  numberClass := ⟨0⟩
  stringClass := ⟨0⟩
  arrayClass := ⟨0⟩
  dictClass := ⟨0⟩

theorem ordered_twoParents : twoParents.heap.Ordered := by
  rintro ⟨c⟩ p hp
  rcases c with _ | _ | _ | c
  · cases hp
  · cases hp
  · change p ∈ [⟨0⟩, ⟨1⟩] at hp
    simp only [List.mem_cons, List.not_mem_nil, or_false] at hp
    rcases hp with rfl | rfl <;> decide
  · exact absurd hp List.not_mem_nil

theorem declared_size_twoParents (c : ClassRef) : twoParents.heap.declared? "size" c =
    if c = ⟨0⟩ then some (.str "small") else if c = ⟨1⟩ then some (.str "large") else none := by
  have hdefaults : (default : ClassObject).defaults = ∅ := rfl
  rcases c with ⟨_ | _ | _ | c⟩ <;>
    simp [Heap.declared?, Heap.classObject, twoParents, Std.HashMap.getElem_insert, hdefaults]

theorem declared_name_twoParents (c : ClassRef) : twoParents.heap.declared? "name" c =
    if c = ⟨0⟩ then some (.str "first") else none := by
  have hdefaults : (default : ClassObject).defaults = ∅ := rfl
  rcases c with ⟨_ | _ | _ | c⟩ <;>
    simp [Heap.declared?, Heap.classObject, twoParents, hdefaults]

/-- A field that one class alone declares. -/
theorem unambiguous_name_twoParents : twoParents.heap.Unambiguous "name" ⟨2⟩ := by
  intro a _ _ p _ p' _ d d' hd hd'
  have halone : ∀ d, twoParents.heap.declared? "name" d ≠ none → d = ⟨0⟩ := by
    intro d hd
    by_contra hne
    exact hd (by rw [declared_name_twoParents, if_neg hne])
  rw [halone d hd.ne_none, halone d' hd'.ne_none]

/-- The instance has `size` from the second parent, though members are searched for in the first one
before, and `name` from the first parent, which alone declares it. -/
theorem new_instance_has_declared_fields_twoParents : ∃ o e',
    Script.createInstance ⟨2⟩ #[] twoParents = .ok (.classObj o) e' ∧
    e'.heap.ownMember? "size" o = some (.str "large") ∧
    Finds twoParents.heap.parents (twoParents.heap.declared? "size") ⟨2⟩ ⟨0⟩ ∧
    twoParents.heap.declared? "size" ⟨0⟩ = some (.str "small") ∧
    e'.heap.ownMember? "name" o = some (.str "first") := by
  have hfirst : ∀ name, twoParents.heap.declared? name ⟨0⟩ ≠ none →
      twoParents.heap.declared? name ⟨2⟩ = none →
      Finds twoParents.heap.parents (twoParents.heap.declared? name) ⟨2⟩ ⟨0⟩ := fun name h₀ h₂ =>
    @Finds.behind _ _ ⟨2⟩ ⟨0⟩ ⟨0⟩ [] [⟨1⟩] h₂ rfl (by simp) (.here h₀)
  have hlast : Finds (fun c => (twoParents.heap.parents c).reverse)
      (twoParents.heap.declared? "size") ⟨2⟩ ⟨1⟩ :=
    @Finds.behind _ _ ⟨2⟩ ⟨1⟩ ⟨1⟩ [] [⟨0⟩] (declared_size_twoParents ⟨2⟩) rfl (by simp)
      (.here (by simp [declared_size_twoParents]))
  obtain ⟨hmade, hfields⟩ := new_instance_has_declared_fields ordered_twoParents ⟨2⟩ #[]
  obtain ⟨v, e', h⟩ := hmade rfl rfl
  obtain ⟨o, rfl, hfields⟩ := hfields v e' h
  refine ⟨o, e', h, ?_, ?_, declared_size_twoParents ⟨0⟩, ?_⟩
  · rw [(hfields "size").2.1 ⟨1⟩ hlast]
    exact declared_size_twoParents ⟨1⟩
  · exact hfirst _ (by simp [declared_size_twoParents]) (declared_size_twoParents ⟨2⟩)
  · rw [(hfields "name").2.2 unambiguous_name_twoParents ⟨0⟩
      (hfirst _ (by simp [declared_name_twoParents]) (declared_name_twoParents ⟨2⟩))]
    exact declared_name_twoParents ⟨0⟩

end ScriptEngine
