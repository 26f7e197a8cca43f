import ScriptEngine.Native.Array
import ScriptEngine.Proofs.Nesting.Copy

/-!
# Arrays that take over a copy

An array that is assigned a deep copy gets the items of an array, the keys and values of a dictionary
by turns, nothing of a void value, and any other value alone (`HoldsCopy`). The copy was made before
the array is written to, so that the array is no part of it: what the array holds is the same whether
the array stood in the copied value or not (`Copied.holdsCopy`).
-/

namespace ScriptEngine

namespace Heap

variable {h k k' : Heap} {v v' w x : Value} {r : ArrayRef}

/-- In the heap `k`, an array holds what it takes over from a deep copy of the value that `v` is in
`h`. -/
def HoldsCopy (h k : Heap) (r : ArrayRef) : Value → Prop
  | .void | .undefined => k.array r = #[]
  | .array s => ∀ path, Option.Rel Value.Alike (h.at? (.array s) path) (k.at? (.array r) path)
  | .dict s => ∃ keys : List String, keys.Pairwise (· < ·) ∧
      (∀ key, key ∈ keys ↔ (h.follow? (.dict s) (.entry key)).isSome) ∧
      (k.array r).size = 2 * keys.length ∧
      ∀ i key, keys[i]? = some key → (k.array r)[2 * i]? = some (.str key) ∧
        ∀ path, Option.Rel Value.Alike (h.at? (.dict s) (.entry key :: path))
          (k.at? (.array r) (.item (2 * i + 1) :: path))
  | v => k.array r = #[v]

/-- In a list of pairs one behind the other, the first ones have the even places and the second ones the
odd places. -/
theorem getElem?_flatMap_pair {α β : Type} (f g : α → β) (l : List α) (i : Nat) :
    (l.flatMap fun a => [f a, g a])[2 * i]? = l[i]?.map f ∧
      (l.flatMap fun a => [f a, g a])[2 * i + 1]? = l[i]?.map g := by
  induction l generalizing i with
  | nil => exact ⟨rfl, rfl⟩
  | cons a l ih =>
    cases i with
    | zero => exact ⟨rfl, rfl⟩
    | succ i => exact ih i

/-- A container among the items that an array takes over is a part of the value. -/
theorem exists_follow?_of_mem_flatten (hx : x ∈ h.flatten v) (hcontainer : x.isContainer = true) :
    ∃ link, h.follow? v link = some x := by
  cases v with
  | void | undefined => exact absurd hx (Array.not_mem_empty x)
  | array s =>
    obtain ⟨i, hi⟩ := Array.getElem?_of_mem hx
    exact ⟨.item i, hi⟩
  | dict s =>
    obtain ⟨⟨key, w⟩, hmem, hx⟩ := List.mem_flatMap.1 (List.mem_toArray.1 hx)
    rcases List.mem_pair.1 hx with rfl | rfl
    · cases hcontainer
    · exact ⟨.entry key, Std.TreeMap.mem_toList_iff_getElem?_eq_some.1 hmem⟩
  | _ =>
    obtain rfl := Array.mem_singleton.1 hx
    cases hcontainer

/-- What an array holds that takes over a value is apart from another value that is apart from this one,
if the array is no part of either. -/
theorem Unshared.taken (hvw : h.Unshared v w) (hr : h.Stores (.array r))
    (hv : ¬ h.HasPart v (.array r)) (hw : ¬ h.HasPart w (.array r)) :
    (h.modifyArray r fun _ => h.flatten w).Unshared v (.array r) := by
  rintro x ⟨path, hx⟩ ⟨path', hx'⟩
  rw [(sameWithin_modifyArray _ hv).at?_eq] at hx
  by_contra hleaf
  have hcontainer : x.isContainer = true := Bool.eq_true_of_not_eq_false hleaf
  cases path' with
  | nil =>
    obtain rfl := Option.some.inj hx'
    exact hv ⟨path, hx⟩
  | cons link path' =>
    obtain ⟨y, hy, hrest⟩ := Option.bind_eq_some_iff.1 hx'
    cases link with
    | entry key => cases hy
    | item i =>
      rw [follow?, array_modifyArray hr] at hy
      obtain ⟨link, hlink⟩ := exists_follow?_of_mem_flatten (Array.mem_of_getElem? hy)
        (isContainer_of_hasPart ⟨path', hrest⟩ hcontainer)
      have hsame := (sameWithin_modifyArray (fun _ => h.flatten w) hw).part
        (.head link hlink (.refl h y))
      rw [hsame.at?_eq] at hrest
      exact hleaf (hvw x ⟨path, hx⟩ (.head link hlink ⟨path', hrest⟩))

theorem keys_pairwise (t : Dict) : t.keys.Pairwise (· < ·) := by
  have hkeys : t.keys.Pairwise fun key key' => compare key key' = .lt := Std.TreeMap.ordered_keys
  exact hkeys.imp compareOfLessAndEq_eq_lt.1

theorem isSome_eq_of_rel {R : Value → Value → Prop} {o o' : Option Value} (ho : Option.Rel R o o') :
    o.isSome = o'.isSome := by
  cases ho <;> rfl

variable (hc : h.Copied k k' v v') (hr : k.Stores (.array r))

include hc hr

theorem Copied.not_hasPart : ¬ k'.HasPart v' (.array r) :=
  fun hpart => (hc.fresh _ hpart rfl).1 hr

/-- Behind an item that an array takes over from the copy, there is what stands behind the part of the
value. -/
theorem Copied.alike_item {items : Array Value} {i : Nat} {link : Link}
    (hitem : items[i]? = k'.follow? v' link) (path : List Link) :
    Option.Rel Value.Alike (h.at? v (link :: path))
      ((k'.modifyArray r fun _ => items).at? (.array r) (.item i :: path)) := by
  have hsame := sameWithin_modifyArray (fun _ => items) (hc.not_hasPart hr)
  have hfollow : (k'.modifyArray r fun _ => items).follow? (.array r) (.item i) =
      (k'.modifyArray r fun _ => items).follow? v' link := by
    rw [hsame.follow?_eq, ← hitem, follow?, array_modifyArray (hc.grows.stores hr)]
  have halike := hc.alike (link :: path)
  rwa [← hsame.at?_eq, at?_cons _ v', ← hfollow, ← at?_cons] at halike

/-- An array that is assigned the items of a copy. -/
theorem Copied.holdsCopy : h.HoldsCopy (k'.modifyArray r fun _ => k'.flatten v') r v := by
  have hitems := array_modifyArray (hc.grows.stores hr) fun _ => k'.flatten v'
  have hroot := hc.alike []
  rw [at?_nil, at?_nil] at hroot
  cases hroot with
  | some hroot =>
  cases hroot with
  | @array s s' =>
    rintro (_ | ⟨link, path⟩)
    · exact .some .array
    · cases link with
      | item i => exact hc.alike_item hr rfl path
      | entry key => exact .none
  | @dict s s' =>
    have hpair := getElem?_flatMap_pair (fun p : String × Value => .str p.1) (·.2) (k'.dict s').toList
    refine ⟨(k'.dict s').keys, keys_pairwise _, fun key => ?_, ?_, fun i key hkey => ?_⟩
    · have halike := isSome_eq_of_rel (hc.alike [.entry key])
      simp only [at?_cons, at?_nil, Option.bind_fun_some] at halike
      rw [halike, Std.TreeMap.mem_keys, Std.TreeMap.mem_iff_isSome_getElem?]
      rfl
    · rw [hitems, flatten, List.size_toArray, List.length_flatMap]
      simp [Nat.mul_comm]
    · rw [← Std.TreeMap.map_fst_toList_eq_keys, List.getElem?_map] at hkey
      obtain ⟨⟨_, w⟩, hentry, rfl⟩ := Option.map_eq_some_iff.1 hkey
      refine ⟨?_, hc.alike_item hr ?_⟩
      · rw [hitems, flatten, List.getElem?_toArray, (hpair i).1, hentry]
        rfl
      · rw [flatten, List.getElem?_toArray, (hpair i).2, hentry]
        exact (Std.TreeMap.mem_toList_iff_getElem?_eq_some.1 (List.mem_of_getElem? hentry)).symm
  | same hleaf =>
    cases v with
    | array s => cases hleaf
    | dict s => cases hleaf
    | _ => exact hitems

end Heap

end ScriptEngine
