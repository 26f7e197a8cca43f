import Mathlib.Data.List.Basic
import Mathlib.Data.Nat.Init
import Mathlib.Logic.Relation
import ScriptEngine.Heap.Class

/-!
# Class hierarchies

A class has parents, which are classes that were there before it (`Heap.Ordered`). So a hierarchy
has no cycles, but a class can have several parents and can be reached in several ways.

**Searches.** What a class gets from its hierarchy is the first hit of a search that goes depth
first. `Finds next table c d` says, without a list of all classes on the way, that the search from
`c` ends at `d`: either `c` itself has something in the table, or nothing reachable from the earlier
classes behind `c` has, and the search from the next one ends at `d`. The order in which the classes
behind a class are taken is `next`, since members and fields differ in it.

**Traversals.** The heap lists the classes of a hierarchy and takes the first hit. Any such list that
is put together as a search goes gives what the search finds (`findSome?_traversal`), and nothing
exactly if nothing reachable is in the table (`findSome?_traversal_eq_none`). Both `ancestry`
(`ancestry_cons`) and the reverse of `ancestryUp` (`reverse_ancestryUp`) are such lists, the second
one taking the parents from the last to the first.
-/

namespace ScriptEngine

/-! ## Searches -/

/-- A class that a search from another one can come to. -/
abbrev Reaches (next : ClassRef → List ClassRef) : ClassRef → ClassRef → Prop :=
  Relation.ReflTransGen fun c p => p ∈ next c

/-- Where a search depth first ends; see the head of the module. -/
inductive Finds (next : ClassRef → List ClassRef) (table : ClassRef → Option Value) :
    ClassRef → ClassRef → Prop where
  | here {c : ClassRef} (hc : table c ≠ none) : Finds next table c c
  | behind {c p d : ClassRef} {before after : List ClassRef} (hc : table c = none)
      (hnext : next c = before ++ p :: after)
      (hbefore : ∀ q ∈ before, ∀ a, Reaches next q a → table a = none)
      (hp : Finds next table p d) : Finds next table c d

/-- Where a search ends that starts from several classes, one behind the other. -/
def FindsAmong (next : ClassRef → List ClassRef) (table : ClassRef → Option Value)
    (roots : List ClassRef) (d : ClassRef) : Prop :=
  ∃ before p after, roots = before ++ p :: after ∧
    (∀ q ∈ before, ∀ a, Reaches next q a → table a = none) ∧ Finds next table p d

section Search

variable {next : ClassRef → List ClassRef} {table : ClassRef → Option Value}
  {c p d d' : ClassRef} {v : Value}

theorem Finds.ne_none (h : Finds next table c d) : table d ≠ none := by
  induction h with
  | here hc => exact hc
  | behind _ _ _ _ ih => exact ih

theorem Finds.reaches (h : Finds next table c d) : Reaches next c d := by
  induction h with
  | here _ => exact .refl
  | @behind c p d before after _ hnext _ _ ih =>
    have hp : p ∈ next c := by
      rw [hnext]
      exact List.mem_append_right _ List.mem_cons_self
    exact .head hp ih

theorem finds_of_some (hc : table c ≠ none) : Finds next table c d ↔ d = c := by
  constructor
  · intro h
    cases h with
    | here _ => rfl
    | behind hnone => exact absurd hnone hc
  · rintro rfl
    exact .here hc

theorem finds_of_none (hc : table c = none) :
    Finds next table c d ↔ FindsAmong next table (next c) d := by
  constructor
  · intro h
    cases h with
    | here hsome => exact absurd hc hsome
    | behind _ hnext hbefore hp => exact ⟨_, _, _, hnext, hbefore, hp⟩
  · rintro ⟨before, p, after, hnext, hbefore, hp⟩
    exact .behind hc hnext hbefore hp

/-- Of several classes, a search goes on from the first one that leads to anything. -/
theorem eq_of_split {before before' after after' : List ClassRef} {p' : ClassRef}
    (hsplit : before ++ p :: after = before' ++ p' :: after')
    (hbefore : ∀ q ∈ before, ∀ a, Reaches next q a → table a = none)
    (hbefore' : ∀ q ∈ before', ∀ a, Reaches next q a → table a = none)
    (hp : Finds next table p d) (hp' : Finds next table p' d') : p' = p := by
  rcases List.append_eq_append_iff.1 hsplit with
    ⟨_ | ⟨q, middle⟩, hfront, hback⟩ | ⟨_ | ⟨q, middle⟩, hfront, hback⟩
  · exact (List.cons.inj hback).1.symm
  · obtain ⟨rfl, -⟩ := List.cons.inj hback
    exact absurd (hbefore' p (by simp [hfront]) d hp.reaches) hp.ne_none
  · exact (List.cons.inj hback).1
  · obtain ⟨rfl, -⟩ := List.cons.inj hback
    exact absurd (hbefore p' (by simp [hfront]) d' hp'.reaches) hp'.ne_none

/-- A search has one end. -/
theorem Finds.unique (h : Finds next table c d) : ∀ d', Finds next table c d' → d' = d := by
  induction h with
  | here hc => exact fun d' h' => (finds_of_some hc).1 h'
  | @behind c p d before after hc hnext hbefore hp ih =>
    intro d' h'
    obtain ⟨before', p', after', hnext', hbefore', hp'⟩ := (finds_of_none hc).1 h'
    obtain rfl := eq_of_split (hnext.symm.trans hnext') hbefore hbefore' hp hp'
    exact ih d' hp'

theorem FindsAmong.unique {roots : List ClassRef} (h : FindsAmong next table roots d)
    (h' : FindsAmong next table roots d') : d' = d := by
  obtain ⟨before, p, after, hroots, hbefore, hp⟩ := h
  obtain ⟨before', p', after', hroots', hbefore', hp'⟩ := h'
  obtain rfl := eq_of_split (hroots.symm.trans hroots') hbefore hbefore' hp hp'
  exact hp.unique d' hp'

/-! ## Traversals -/

/-- The classes behind a class were there before it. -/
def Older (next : ClassRef → List ClassRef) : Prop :=
  ∀ c, ∀ p ∈ next c, p.index < c.index

theorem Older.le_of_reaches (holder : Older next) (h : Reaches next c p) : p.index ≤ c.index := by
  induction h with
  | refl => exact Nat.le_refl _
  | @tail a p _ hp ih => exact Nat.le_trans (Nat.le_of_lt (holder a p hp)) ih

/-- A list of classes in the order in which a search comes to them. -/
def Traverses (next : ClassRef → List ClassRef) (list : ClassRef → List ClassRef) : Prop :=
  ∀ c, list c = c :: (next c).flatMap list

variable {list : ClassRef → List ClassRef} {roots : List ClassRef}

theorem findSome?_flatMap {α : Type} (f : α → List ClassRef) (l : List α) :
    (l.flatMap f).findSome? table = l.findSome? fun x => (f x).findSome? table := by
  induction l with
  | nil => rfl
  | cons x l ih =>
    rw [List.flatMap_cons, List.findSome?_append, ih, List.findSome?_cons]
    rcases (f x).findSome? table with _ | v <;> rfl

theorem reaches_iff {a : ClassRef} :
    Reaches next c a ↔ a = c ∨ ∃ p ∈ next c, Reaches next p a :=
  Relation.ReflTransGen.cases_head_iff.trans (or_congr_left eq_comm)

theorem findSome?_traversal_eq_none (hlist : Traverses next list) (holder : Older next)
    (c : ClassRef) : (list c).findSome? table = none ↔ ∀ a, Reaches next c a → table a = none := by
  rw [List.findSome?_eq_none_iff]
  -- The list has exactly the classes that are reachable.
  suffices hmem : ∀ a, a ∈ list c ↔ Reaches next c a by simp only [hmem]
  induction hn : c.index using Nat.strong_induction_on generalizing c with
  | _ n ih =>
    intro a
    rw [hlist c, List.mem_cons, List.mem_flatMap, reaches_iff]
    refine or_congr Iff.rfl (exists_congr fun p => and_congr_right fun hp => ?_)
    exact ih p.index (hn ▸ holder c p hp) p rfl a

/-- The first hit among several classes, if the first hit from each of them is known. -/
theorem findSome?_roots (hlist : Traverses next list) (holder : Older next)
    (hroots : ∀ p ∈ roots, ∀ v, (list p).findSome? table = some v ↔
      ∃ d, Finds next table p d ∧ table d = some v) :
    (roots.findSome? fun p => (list p).findSome? table) = some v ↔
      ∃ d, FindsAmong next table roots d ∧ table d = some v := by
  rw [List.findSome?_eq_some_iff]
  constructor
  · rintro ⟨before, p, after, rfl, hp, hbefore⟩
    obtain ⟨d, hd, hv⟩ := (hroots p (by simp) v).1 hp
    refine ⟨d, ⟨before, p, after, rfl, fun q hq => ?_, hd⟩, hv⟩
    exact (findSome?_traversal_eq_none hlist holder q).1 (hbefore q hq)
  · rintro ⟨d, ⟨before, p, after, rfl, hbefore, hd⟩, hv⟩
    refine ⟨before, p, after, rfl, (hroots p (by simp) v).2 ⟨d, hd, hv⟩, fun q hq => ?_⟩
    exact (findSome?_traversal_eq_none hlist holder q).2 (hbefore q hq)

/-- The first hit of a traversal is what the search finds. -/
theorem findSome?_traversal (hlist : Traverses next list) (holder : Older next) (c : ClassRef) :
    ∀ v, (list c).findSome? table = some v ↔ ∃ d, Finds next table c d ∧ table d = some v := by
  induction hn : c.index using Nat.strong_induction_on generalizing c with
  | _ n ih =>
    intro v
    rw [hlist c, List.findSome?_cons]
    rcases hc : table c with _ | w
    · simp only [finds_of_none hc, findSome?_flatMap]
      exact findSome?_roots hlist holder fun p hp => ih p.index (hn ▸ holder c p hp) p rfl
    · simp only [finds_of_some (hc ▸ Option.some_ne_none w), exists_eq_left, hc]

/-- A search that has something to find ends. -/
theorem exists_finds (hlist : Traverses next list) (holder : Older next) (ha : Reaches next c p)
    (hp : table p ≠ none) : ∃ d, Finds next table c d := by
  have hsome : (list c).findSome? table ≠ none := fun hnone =>
    hp ((findSome?_traversal_eq_none hlist holder c).1 hnone p ha)
  obtain ⟨v, hv⟩ := Option.ne_none_iff_exists'.1 hsome
  obtain ⟨d, hd, -⟩ := (findSome?_traversal hlist holder c v).1 hv
  exact ⟨d, hd⟩

end Search

namespace Heap

variable {h : Heap} {c : ClassRef}

/-! ## Ancestors -/

/-- The parents of a class in the order of their declaration. -/
def parents (h : Heap) (c : ClassRef) : List ClassRef :=
  (h.classObject c).parents

/-- The parents of every class were there before it. -/
def Ordered (h : Heap) : Prop :=
  Older h.parents

theorem flatMap_parents {α : Type} (hh : h.Ordered) (f : ClassRef → List α) :
    ((h.classObject c).parents.flatMap fun p => if p.index < c.index then f p else []) =
      (h.parents c).flatMap f :=
  List.flatMap_congr fun p hp => if_pos (hh c p hp)

theorem traverses_ancestry (hh : h.Ordered) : Traverses h.parents h.ancestry := by
  intro c
  rw [ancestry, flatMap_parents hh]

theorem older_reverse (hh : h.Ordered) : Older fun c => (h.parents c).reverse :=
  fun c p hp => hh c p (List.mem_reverse.1 hp)

/-- Backwards, the list that has each class behind its parents starts with the class and takes the
parents from the last to the first. -/
theorem traverses_ancestryUp (hh : h.Ordered) :
    Traverses (fun c => (h.parents c).reverse) fun c => (h.ancestryUp c).reverse := by
  intro c
  show (h.ancestryUp c).reverse = _
  rw [ancestryUp, flatMap_parents hh, List.reverse_append, List.reverse_flatMap]
  rfl

/-! ## New classes and changed ones -/

theorem classObject_newClass (o : ClassObject) :
    (h.newClass o).2.classObject c = if c = (h.newClass o).1 then o else h.classObject c := by
  rcases c with ⟨n⟩
  simp only [classObject, newClass, Array.getD_eq_getD_getElem?, Array.getElem?_push,
    ClassRef.mk.injEq]
  by_cases hn : n = h.classes.size
  · rw [if_pos hn, if_pos hn, Option.getD_some]
  · rw [if_neg hn, if_neg hn]

theorem classObject_modifyClass {r : ClassRef} (hr : r.index < h.classes.size)
    (f : ClassObject → ClassObject) :
    (h.modifyClass r f).classObject c = if c = r then f (h.classObject c) else h.classObject c := by
  simp only [classObject, modifyClass, Array.getD_eq_getD_getElem?, Array.getElem?_modify]
  by_cases hc : c = r
  · subst hc
    rw [if_pos rfl, if_pos rfl, Array.getElem?_eq_getElem hr, Option.map_some, Option.getD_some,
      Option.getD_some]
  · have hne : r.index ≠ c.index := fun heq => hc (congrArg ClassRef.mk heq.symm)
    rw [if_neg hne, if_neg hc]

/-- The parents of a class do not change. -/
theorem parents_modifyClass {r : ClassRef} (hr : r.index < h.classes.size)
    {f : ClassObject → ClassObject} (hf : ∀ o, (f o).parents = o.parents) :
    (h.modifyClass r f).parents = h.parents := by
  funext c
  rw [parents, classObject_modifyClass hr]
  split
  · exact hf _
  · rfl

end Heap

end ScriptEngine
