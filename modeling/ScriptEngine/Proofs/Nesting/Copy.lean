import ScriptEngine.Proofs.Nesting.Path

/-!
# Copies of arrays and dictionaries

`Copied` compares a value with a copy of it, path by path: each path leads to the same, but all
containers of the copy are new, one for each path. The heap grows while a copy is made, and is the same
for what was in it before (`Grows.sameWithin`), so that a copy stays a copy (`Copied.later`) and copies
that are made one after the other have nothing in common (`CopiedAll.cons`).

A new container that holds copies of the parts of another one is a copy of it
(`CopiedAll.container`). This is used twice, for arrays (`CopiedAll.newArray`) and for dictionaries
(`CopiedAll.newDict`), whose entries stand in the order of their keys (`dict_getElem?`).
-/

namespace ScriptEngine

namespace Heap

variable {h k k' : Heap} {v w x : Value}

/-! ## Growth -/

/-- An array or dictionary is in the heap. -/
def Stores (h : Heap) : Value → Prop
  | .array r => r.index < h.arrays.size
  | .dict r => r.index < h.dicts.size
  | _ => True

/-- All parts of a value are in the heap. -/
def Encloses (h : Heap) (v : Value) : Prop :=
  ∀ w, h.HasPart v w → h.Stores w

/-- A heap has what another one has, and possibly new arrays and dictionaries. -/
def Grows (h k : Heap) : Prop :=
  ∃ arrays dicts, k = { h with arrays := h.arrays ++ arrays, dicts := h.dicts ++ dicts }

theorem Encloses.part (hv : h.Encloses v) (hw : h.HasPart v w) : h.Encloses w :=
  fun x hx => hv x (hw.trans hx)

theorem Encloses.follow {link : Link} (hv : h.Encloses v) (hlink : h.follow? v link = some w) :
    h.Encloses w :=
  hv.part (.head link hlink (.refl h w))

theorem stores_of_follow? {link : Link} (hlink : h.follow? v link = some w) : h.Stores v := by
  unfold follow? at hlink
  split at hlink
  · rename_i r i
    by_contra hr
    have hnone : h.arrays[r.index]? = none := Array.getElem?_eq_none (Nat.le_of_not_lt hr)
    rw [array, Array.getD_eq_getD_getElem?, hnone] at hlink
    cases hlink
  · rename_i r key
    by_contra hr
    have hnone : h.dicts[r.index]? = none := Array.getElem?_eq_none (Nat.le_of_not_lt hr)
    rw [dict, Array.getD_eq_getD_getElem?, hnone] at hlink
    cases hlink
  · cases hlink

namespace Grows

theorem refl (h : Heap) : h.Grows h :=
  ⟨#[], #[], by simp⟩

theorem trans (hk : h.Grows k) (hk' : k.Grows k') : h.Grows k' := by
  obtain ⟨as, ds, rfl⟩ := hk
  obtain ⟨as', ds', rfl⟩ := hk'
  exact ⟨as ++ as', ds ++ ds', by simp⟩

theorem newArray (h : Heap) (items : Array Value) : h.Grows (h.newArray items).2 :=
  ⟨#[items], #[], by simp [Heap.newArray]⟩

theorem newDict (h : Heap) (entries : Dict) : h.Grows (h.newDict entries).2 :=
  ⟨#[], #[entries], by simp [Heap.newDict]⟩

theorem stores (hk : h.Grows k) (hv : h.Stores v) : k.Stores v := by
  obtain ⟨as, ds, rfl⟩ := hk
  cases v with
  | array r => exact Nat.lt_of_lt_of_le hv (by simp)
  | dict r => exact Nat.lt_of_lt_of_le hv (by simp)
  | _ => trivial

theorem array_eq (hk : h.Grows k) {r : ArrayRef} (hr : h.Stores (.array r)) : k.array r = h.array r := by
  obtain ⟨as, ds, rfl⟩ := hk
  simp only [array, Array.getD_eq_getD_getElem?, Array.getElem?_append_left hr]

theorem dict_eq (hk : h.Grows k) {r : DictRef} (hr : h.Stores (.dict r)) : k.dict r = h.dict r := by
  obtain ⟨as, ds, rfl⟩ := hk
  simp only [dict, Array.getD_eq_getD_getElem?, Array.getElem?_append_left hr]

/-- Growth changes nothing in a value that is inside the heap. -/
theorem sameWithin (hk : h.Grows k) (hv : h.Encloses v) : h.SameWithin k v where
  array _ hr := hk.array_eq (hv _ hr)
  dict _ hr := hk.dict_eq (hv _ hr)

end Grows

/-! ## Copies -/

end Heap

/-- Two values look the same from outside: two arrays, two dictionaries, or the same value. -/
inductive Value.Alike : Value → Value → Prop
  | array {r s : ArrayRef} : Alike (.array r) (.array s)
  | dict {r s : DictRef} : Alike (.dict r) (.dict s)
  | same {v : Value} (hv : v.isContainer = false) : Alike v v

namespace Heap

variable {h k k₁ k' : Heap} {v v' w w' x : Value} {vs vs' : List Value}

/-- Growing from `k` to `k'`, the heap got a copy `v'` of the value that `v` is in `h`. -/
structure Copied (h k k' : Heap) (v v' : Value) : Prop where
  grows : k.Grows k'
  /-- Each path leads to the same in the copy as in the value. -/
  alike : ∀ path, Option.Rel Value.Alike (h.at? v path) (k'.at? v' path)
  /-- The containers of the copy are new. -/
  fresh : ∀ w, k'.HasPart v' w → w.isContainer = true → ¬ k.Stores w ∧ k'.Stores w
  /-- No container of the copy is at the end of two paths. -/
  once : ∀ p q w, k'.at? v' p = some w → k'.at? v' q = some w → w.isContainer = true → p = q

/-- Two values have no containers in common. -/
def Unshared (h : Heap) (v w : Value) : Prop :=
  ∀ x, h.HasPart v x → h.HasPart w x → x.isContainer = false

/-- Growing from `k` to `k'`, the heap got copies of values, apart from each other. -/
structure CopiedAll (h k k' : Heap) (vs vs' : List Value) : Prop where
  grows : k.Grows k'
  each : List.Forall₂ (h.Copied k k') vs vs'
  apart : vs'.Pairwise k'.Unshared

theorem follow?_of_not_isContainer (hv : v.isContainer = false) (link : Link) :
    h.follow? v link = none := by
  cases v <;> first | rfl | cases hv

theorem isContainer_of_hasPart (hw : h.HasPart v w) (hcontainer : w.isContainer = true) :
    v.isContainer = true := by
  by_contra hv
  have hself := hw.eq_of_empty (follow?_of_not_isContainer (Bool.eq_false_of_not_eq_true hv))
  exact hv (hself ▸ hcontainer)

theorem exists_of_rel_some {R : Value → Value → Prop} {o : Option Value}
    (ho : Option.Rel R o (some x)) : ∃ y, o = some y ∧ R y x := by
  cases ho with
  | some hy => exact ⟨_, rfl, hy⟩

theorem rel_getElem?_of_forall₂ {R : Value → Value → Prop} (hvs : List.Forall₂ R vs vs') (i : Nat) :
    Option.Rel R vs[i]? vs'[i]? := by
  induction hvs generalizing i with
  | nil => exact .none
  | cons hv _ ih =>
    cases i with
    | zero => exact .some hv
    | succ i => exact ih i

namespace Copied

/-- A value without parts is its own copy. -/
theorem leaf (hv : v.isContainer = false) : h.Copied k k v v := by
  have hempty (h : Heap) (link : Link) : h.follow? v link = none :=
    follow?_of_not_isContainer hv link
  refine ⟨.refl k, fun path => ?_, fun w hw hcontainer => ?_, fun p q w hp _ hcontainer => ?_⟩
  · cases path with
    | nil => exact .some (.same hv)
    | cons link path =>
      rw [at?_cons, at?_cons, hempty, hempty]
      exact .none
  · rw [isContainer_of_hasPart hw hcontainer] at hv
    cases hv
  · rw [isContainer_of_hasPart ⟨p, hp⟩ hcontainer] at hv
    cases hv

/-- A copy is inside the heap. -/
theorem inside (hc : h.Copied k k' v v') : k'.Encloses v' := fun w hw => by
  cases hcontainer : w.isContainer with
  | true => exact (hc.fresh w hw hcontainer).2
  | false => cases w <;> trivial

/-- A copy made on a larger heap. -/
theorem earlier (hk : k.Grows k₁) (hc : h.Copied k₁ k' v v') : h.Copied k k' v v' where
  grows := hk.trans hc.grows
  alike := hc.alike
  fresh w hw hcontainer :=
    ⟨fun hold => (hc.fresh w hw hcontainer).1 (hk.stores hold), (hc.fresh w hw hcontainer).2⟩
  once := hc.once

/-- A copy stays one when the heap grows on. -/
theorem later (hk : k₁.Grows k') (hc : h.Copied k k₁ v v') : h.Copied k k' v v' := by
  have hpath := (hk.sameWithin hc.inside).at?_eq
  refine ⟨hc.grows.trans hk, fun path => ?_, fun w hw hcontainer => ?_, fun p q w hp hq => ?_⟩
  · rw [hpath]
    exact hc.alike path
  · obtain ⟨path, hw⟩ := hw
    rw [hpath] at hw
    have hfresh := hc.fresh w ⟨path, hw⟩ hcontainer
    exact ⟨hfresh.1, hk.stores hfresh.2⟩
  · rw [hpath] at hp hq
    exact hc.once p q w hp hq

/-- A container is copied if it is new and its parts are copied, apart from it and each other. -/
theorem container (hk : k.Grows k') (hvv' : v.Alike v') (hold : ¬ k.Stores v') (hnew : k'.Stores v')
    (hparts : ∀ link, Option.Rel (h.Copied k k') (h.follow? v link) (k'.follow? v' link))
    (hself : ∀ link x, k'.follow? v' link = some x → ¬ k'.HasPart x v')
    (hapart : ∀ link link' x y, link ≠ link' → k'.follow? v' link = some x →
      k'.follow? v' link' = some y → k'.Unshared x y) :
    h.Copied k k' v v' := by
  have hpart : ∀ {link x}, k'.follow? v' link = some x → ∃ y, h.Copied k k' y x := fun {link x} hx => by
    obtain ⟨y, -, hc⟩ := exists_of_rel_some (hx ▸ hparts link)
    exact ⟨y, hc⟩
  refine ⟨hk, fun path => ?_, fun w hw hcontainer => ?_, fun p q w hp hq hcontainer => ?_⟩
  · cases path with
    | nil => exact .some hvv'
    | cons link path =>
      have hrel := hparts link
      rw [at?_cons, at?_cons]
      generalize h.follow? v link = o, k'.follow? v' link = o' at hrel ⊢
      cases hrel with
      | some hc => exact hc.alike path
      | none => exact .none
  · obtain ⟨path, hw⟩ := hw
    cases path with
    | nil =>
      obtain rfl := Option.some.inj hw
      exact ⟨hold, hnew⟩
    | cons link path =>
      obtain ⟨x, hx, hpath⟩ := Option.bind_eq_some_iff.1 hw
      obtain ⟨y, hc⟩ := hpart hx
      exact hc.fresh w ⟨path, hpath⟩ hcontainer
  · -- Two paths to one container: neither is empty alone, and they begin with the same link.
    have hcons : ∀ {link path}, k'.at? v' (link :: path) = some w → ∃ x, k'.follow? v' link = some x ∧
        k'.at? x path = some w := fun h => Option.bind_eq_some_iff.1 h
    cases p with
    | nil =>
      obtain rfl := Option.some.inj hp
      cases q with
      | nil => rfl
      | cons link q =>
        obtain ⟨x, hx, hq⟩ := hcons hq
        exact absurd ⟨q, hq⟩ (hself link x hx)
    | cons link p =>
      obtain ⟨x, hx, hp⟩ := hcons hp
      cases q with
      | nil =>
        obtain rfl := Option.some.inj hq
        exact absurd ⟨p, hp⟩ (hself link x hx)
      | cons link' q =>
        obtain ⟨y, hy, hq⟩ := hcons hq
        by_cases hlink : link = link'
        · subst hlink
          obtain rfl := Option.some.inj (hx.symm.trans hy)
          obtain ⟨z, hc⟩ := hpart hx
          rw [hc.once p q w hp hq hcontainer]
        · have hleaf := hapart link link' x y hlink hx hy w ⟨p, hp⟩ ⟨q, hq⟩
          rw [hleaf] at hcontainer
          cases hcontainer

end Copied

namespace CopiedAll

theorem nil (h k : Heap) : h.CopiedAll k k [] [] :=
  ⟨.refl k, .nil, .nil⟩

theorem exists_of_getElem? (hc : h.CopiedAll k k' vs vs') {i : Nat} (hx : vs'[i]? = some x) :
    ∃ y, h.Copied k k' y x := by
  obtain ⟨y, -, hy⟩ := exists_of_rel_some (hx ▸ rel_getElem?_of_forall₂ hc.each i)
  exact ⟨y, hy⟩

/-- Copies that are made one after the other are apart, since each is new when it is made. -/
theorem cons (hv : h.Copied k k₁ v v') (hvs : h.CopiedAll k₁ k' vs vs') :
    h.CopiedAll k k' (v :: vs) (v' :: vs') := by
  refine ⟨hv.grows.trans hvs.grows,
    .cons (hv.later hvs.grows) (hvs.each.imp fun _ _ => .earlier hv.grows),
    .cons (fun w hw x hvx hwx => ?_) hvs.apart⟩
  obtain ⟨i, hi⟩ := List.getElem?_of_mem hw
  obtain ⟨y, hy⟩ := hvs.exists_of_getElem? hi
  obtain ⟨path, hpath⟩ := hvx
  rw [(hvs.grows.sameWithin hv.inside).at?_eq] at hpath
  by_contra hcontainer
  have hcontainer : x.isContainer = true := Bool.eq_true_of_not_eq_false hcontainer
  exact (hy.fresh x hwx hcontainer).1 (hv.fresh x ⟨path, hpath⟩ hcontainer).2

/-- A new container of copies is a copy. The parts are counted through by `index`. -/
theorem container (index : Link → Nat) (hc : h.CopiedAll k k₁ vs vs') (hk : k₁.Grows k')
    (hvv' : v.Alike v') (hold : ¬ k₁.Stores v') (hnew : k'.Stores v')
    (hv : ∀ link, h.follow? v link = vs[index link]?)
    (hv' : ∀ link, k'.follow? v' link = vs'[index link]?)
    (hindex : ∀ link link', index link < vs'.length → index link = index link' → link = link') :
    h.Copied k k' v v' := by
  have hpath : ∀ {i x}, vs'[i]? = some x → ∀ path, k'.at? x path = k₁.at? x path := fun hx path => by
    obtain ⟨y, hy⟩ := hc.exists_of_getElem? hx
    exact (hk.sameWithin hy.inside).at?_eq path
  refine .container (hc.grows.trans hk) hvv' (fun h => hold (hc.grows.stores h)) hnew (fun link => ?_)
    (fun link x hx hself => ?_) fun link link' x y hlink hx hy z ⟨p, hp⟩ ⟨q, hq⟩ => ?_
  · rw [hv, hv']
    exact rel_getElem?_of_forall₂ (hc.each.imp fun _ _ => .later hk) _
  · rw [hv'] at hx
    obtain ⟨path, hself⟩ := hself
    rw [hpath hx] at hself
    obtain ⟨y, hy⟩ := hc.exists_of_getElem? hx
    exact hold (hy.inside v' ⟨path, hself⟩)
  · rw [hv'] at hx hy
    rw [hpath hx] at hp
    rw [hpath hy] at hq
    obtain ⟨hi, rfl⟩ := List.getElem?_eq_some_iff.1 hx
    obtain ⟨hj, rfl⟩ := List.getElem?_eq_some_iff.1 hy
    have hne : index link ≠ index link' := fun heq => hlink (hindex link link' hi heq)
    rcases Nat.lt_or_gt_of_ne hne with hlt | hgt
    · exact List.pairwise_iff_getElem.1 hc.apart _ _ hi hj hlt z ⟨p, hp⟩ ⟨q, hq⟩
    · exact List.pairwise_iff_getElem.1 hc.apart _ _ hj hi hgt z ⟨q, hq⟩ ⟨p, hp⟩

end CopiedAll

/-! ## Copies of containers -/

theorem array_newArray (h : Heap) (items : Array Value) :
    (h.newArray items).2.array (h.newArray items).1 = items := by
  simp [newArray, array, Array.getD_eq_getD_getElem?]

theorem dict_newDict (h : Heap) (entries : Dict) :
    (h.newDict entries).2.dict (h.newDict entries).1 = entries := by
  simp [newDict, dict, Array.getD_eq_getD_getElem?]

theorem CopiedAll.newArray {r : ArrayRef} (hc : h.CopiedAll k k₁ (h.array r).toList vs') :
    h.Copied k (k₁.newArray vs'.toArray).2 (.array r) (.array (k₁.newArray vs'.toArray).1) := by
  let index : Link → Nat
    | .item i => i
    | .entry _ => vs'.length
  have hlength : (h.array r).toList.length = vs'.length := hc.each.length_eq
  have hnone : (h.array r).toList[vs'.length]? = none := List.getElem?_eq_none hlength.le
  refine container index hc (Grows.newArray _ _) .array (Nat.lt_irrefl _) ?_
    (fun link => ?_) (fun link => ?_) fun link link' hlt heq => ?_
  · simp [Stores, Heap.newArray]
  · cases link with
    | item i => exact (Array.getElem?_toList ..).symm
    | entry key => exact hnone.symm
  · cases link with
    | item i => rw [follow?, array_newArray, List.getElem?_toArray]
    | entry key => exact (List.getElem?_eq_none (Nat.le_refl _)).symm
  · cases link <;> cases link'
    · exact congrArg Link.item heq
    · exact absurd (heq ▸ hlt) (Nat.lt_irrefl _)
    · exact absurd hlt (Nat.lt_irrefl _)
    · exact absurd hlt (Nat.lt_irrefl _)

/-- A lookup in a list of pairs is a lookup at the place of the key. -/
theorem lookup_eq_getElem? {l : List (String × Value)} {f : String → Option Value}
    (hf : ∀ key x, f key = some x ↔ (key, x) ∈ l) (key : String) :
    f key = (l.map (·.2))[(l.map (·.1)).idxOf key]? := by
  by_cases hkey : key ∈ l.map (·.1)
  · have hi := List.idxOf_lt_length_iff.2 hkey
    have hi' : (l.map (·.1)).idxOf key < l.length := by simpa using hi
    have hfirst : l[(l.map (·.1)).idxOf key].1 = key := by
      have hget := List.getElem_idxOf hi
      rwa [List.getElem_map] at hget
    have hmem : (key, l[(l.map (·.1)).idxOf key].2) ∈ l :=
      List.mem_of_getElem (Prod.ext hfirst rfl)
    rw [(hf key _).2 hmem, List.getElem?_map, List.getElem?_eq_getElem hi', Option.map_some]
  · have hnone : f key = none := Option.eq_none_iff_forall_ne_some.2 fun x hx =>
      hkey (List.mem_map.2 ⟨_, (hf key x).1 hx, rfl⟩)
    rw [hnone, List.idxOf_eq_length hkey, List.getElem?_eq_none (by simp)]

theorem nodup_keys (t : Dict) : (t.toList.map (·.1)).Nodup := by
  refine List.pairwise_map.2 (Std.TreeMap.distinct_keys_toList.imp fun hne heq => hne ?_)
  rw [heq]
  exact Std.ReflCmp.compare_self

theorem dict_getElem? (t : Dict) (key : String) :
    t[key]? = (t.toList.map (·.2))[(t.toList.map (·.1)).idxOf key]? :=
  lookup_eq_getElem? (fun _ _ => Std.TreeMap.mem_toList_iff_getElem?_eq_some.symm) key

theorem ofList_getElem? {l : List (String × Value)} (hl : (l.map (·.1)).Nodup) (key : String) :
    (Std.TreeMap.ofList l : Dict)[key]? = (l.map (·.2))[(l.map (·.1)).idxOf key]? := by
  have hdistinct : l.Pairwise fun p q => ¬ compare p.1 q.1 = .eq :=
    (List.pairwise_map.1 hl).imp fun hne heq => hne (Std.LawfulEqCmp.eq_of_compare heq)
  have hmem : ∀ key x, (key, x) ∈ l → (Std.TreeMap.ofList l : Dict)[key]? = some x :=
    fun key x => Std.TreeMap.getElem?_ofList_of_mem Std.ReflCmp.compare_self hdistinct
  refine lookup_eq_getElem? (fun key x => ⟨fun hx => ?_, hmem key x⟩) key
  by_cases hkey : key ∈ l.map (·.1)
  · obtain ⟨⟨key, y⟩, hy, rfl⟩ := List.mem_map.1 hkey
    obtain rfl := Option.some.inj ((hmem _ _ hy).symm.trans hx)
    exact hy
  · have hnone : (Std.TreeMap.ofList l : Dict)[key]? = none :=
      Std.TreeMap.getElem?_ofList_of_contains_eq_false (by simpa using hkey)
    rw [hnone] at hx
    cases hx

theorem CopiedAll.newDict {r : DictRef}
    (hc : h.CopiedAll k k₁ ((h.dict r).toList.map (·.2)) vs') :
    h.Copied k (k₁.newDict (.ofList (((h.dict r).toList.map (·.1)).zip vs'))).2 (.dict r)
      (.dict (k₁.newDict (.ofList (((h.dict r).toList.map (·.1)).zip vs'))).1) := by
  let keys := (h.dict r).toList.map (·.1)
  let index : Link → Nat
    | .item _ => vs'.length
    | .entry key => keys.idxOf key
  have hlength : keys.length = vs'.length := by
    have heach := hc.each.length_eq
    rw [List.length_map] at heach ⊢
    exact heach
  have hfirst : (keys.zip vs').map (·.1) = keys := List.map_fst_zip hlength.le
  have hsecond : (keys.zip vs').map (·.2) = vs' := List.map_snd_zip hlength.ge
  have hnodup : ((keys.zip vs').map (·.1)).Nodup := by
    rw [hfirst]
    exact nodup_keys _
  refine container index hc (Grows.newDict _ _) .dict (Nat.lt_irrefl _) ?_
    (fun link => ?_) (fun link => ?_) fun link link' hlt heq => ?_
  · simp [Stores, Heap.newDict]
  · cases link with
    | item i => exact (List.getElem?_eq_none hc.each.length_eq.le).symm
    | entry key => exact dict_getElem? _ key
  · cases link with
    | item i => exact (List.getElem?_eq_none (Nat.le_refl _)).symm
    | entry key =>
      rw [follow?, dict_newDict]
      have hget := ofList_getElem? hnodup key
      rwa [hfirst, hsecond] at hget
  · cases link <;> cases link'
    · exact absurd hlt (Nat.lt_irrefl _)
    · exact absurd hlt (Nat.lt_irrefl _)
    · exact absurd (heq ▸ hlt) (Nat.lt_irrefl _)
    · rename_i key key'
      have heq : keys.idxOf key = keys.idxOf key' := heq
      have hi : keys.idxOf key < keys.length := hlength ▸ hlt
      have hi' : keys.idxOf key' < keys.length := heq ▸ hi
      have hkey : key = key' := by
        rw [← List.getElem_idxOf hi, ← List.getElem_idxOf hi']
        simp only [heq]
      exact congrArg Link.entry hkey

end Heap

end ScriptEngine
