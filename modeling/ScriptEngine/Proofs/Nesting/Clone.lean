import ScriptEngine.Proofs.Nesting.Taken

/-!
# Deep copies

**Theorem (`deep_copy_is_separate`).** A deep copy of a value comes to an end. It fails exactly if a
part of the value is a part of itself. Otherwise each path leads to the same in the copy as in the
value, but all arrays and dictionaries on the way are new, one for each path, so that no write to either
of the two is seen through the other. An array that is assigned a deep copy is left alone if the copy
fails. Otherwise it takes over what the copy holds (`HoldsCopy`), also where it is a part of the value
itself.

The run keeps a list of ancestors, the containers that the value stands in.

* *fuel*: the ancestors are different containers of the heap, so that there are no more of them than
  containers (`length_le_of_above`), and the fuel lasts;
* *failure*: a value that is among its ancestors is a part of itself;
* *success*: a run with fuel `n` has followed all paths, so that none has `n` links (`Shallow`), but
  there are paths of any length through a value that is a part of itself (`not_shallow`).
-/

namespace ScriptEngine

namespace Heap

variable {h k : Heap} {v w x : Value} {n : Nat}

/-! ## Values that contain themselves -/

/-- A part of the value is a part of itself. -/
def SelfContaining (h : Heap) (v : Value) : Prop :=
  ∃ w path, h.HasPart v w ∧ path ≠ [] ∧ h.at? w path = some w

/-- All paths into a value have less than `n` links. -/
def Shallow (h : Heap) (v : Value) (n : Nat) : Prop :=
  ∀ path w, h.at? v path = some w → path.length < n

theorem SelfContaining.part (hw : h.SelfContaining w) (hv : h.HasPart v w) : h.SelfContaining v := by
  obtain ⟨x, path, hx, hne, hloop⟩ := hw
  exact ⟨x, path, hv.trans hx, hne, hloop⟩

/-- A way around a loop can be taken any number of times. -/
theorem at?_around {path : List Link} (hloop : h.at? w path = some w) (n : Nat) :
    h.at? w (List.replicate n path).flatten = some w := by
  induction n with
  | zero => rfl
  | succ n ih => rw [List.replicate_succ, List.flatten_cons, at?_append, hloop, Option.bind_some, ih]

theorem not_shallow (hv : h.SelfContaining v) : ¬ h.Shallow v n := fun hshallow => by
  obtain ⟨w, path, ⟨front, hfront⟩, hne, hloop⟩ := hv
  have hround := at?_around hloop n
  have hlength := hshallow (front ++ (List.replicate n path).flatten) w (by
    rw [at?_append, hfront, Option.bind_some, hround])
  have hpath : 0 < path.length := List.length_pos_of_ne_nil hne
  have hmany : n ≤ n * path.length := Nat.le_mul_of_pos_right n hpath
  simp only [List.length_append, List.length_flatten, List.map_replicate,
    List.sum_replicate_nat] at hlength
  omega

/-- No value contains itself if there is a height that each link goes down. -/
theorem not_selfContaining_of_height (height : Value → Nat)
    (hdown : ∀ w link x, h.follow? w link = some x → height x < height w) :
    ¬ h.SelfContaining v := by
  have hbelow : ∀ path w x, h.at? w path = some x → path ≠ [] → height x < height w := by
    intro path
    induction path with
    | nil => exact fun _ _ _ hne => absurd rfl hne
    | cons link path ih =>
      intro w x hpath _
      obtain ⟨y, hy, hpath⟩ := Option.bind_eq_some_iff.1 hpath
      have hstep := hdown w link y hy
      by_cases hnil : path = []
      · subst hnil
        rwa [← Option.some.inj hpath]
      · exact (ih y x hpath hnil).trans hstep
  rintro ⟨w, path, -, hne, hloop⟩
  exact Nat.lt_irrefl _ (hbelow path w w hloop hne)

/-- The containers that a value stands in. -/
def Above (h : Heap) (ancestors : List Value) (v : Value) : Prop :=
  ∀ a ∈ ancestors, ∃ path, path ≠ [] ∧ h.at? a path = some v

theorem Above.follow {ancestors : List Value} {link : Link} (ha : h.Above ancestors v)
    (hlink : h.follow? v link = some w) : h.Above (v :: ancestors) w := fun a hmem => by
  rcases List.mem_cons.1 hmem with rfl | hmem
  · exact ⟨[link], by simp, by rw [at?_cons, hlink, Option.bind_some, at?_nil]⟩
  · obtain ⟨path, -, hpath⟩ := ha a hmem
    exact ⟨path ++ [link], by simp, by rw [at?_append, hpath, Option.bind_some, at?_cons, hlink,
      Option.bind_some, at?_nil]⟩

/-- Different containers above a value are no more than the containers of the heap. -/
theorem length_le_of_above {ancestors : List Value} (ha : h.Above ancestors v)
    (hnodup : ancestors.Nodup) : ancestors.length ≤ h.arrays.size + h.dicts.size := by
  let all : Finset Value := (Finset.range h.arrays.size).image (fun i => .array ⟨i⟩) ∪
    (Finset.range h.dicts.size).image fun i => .dict ⟨i⟩
  have hsub : ancestors.toFinset ⊆ all := fun a hmem => by
    obtain ⟨path, hne, hpath⟩ := ha a (List.mem_toFinset.1 hmem)
    obtain ⟨link, path, rfl⟩ := List.exists_cons_of_ne_nil hne
    obtain ⟨w, hw, -⟩ := Option.bind_eq_some_iff.1 hpath
    have hstored := stores_of_follow? hw
    cases a with
    | array r =>
      exact Finset.mem_union_left _ (Finset.mem_image.2 ⟨r.index, Finset.mem_range.2 hstored, rfl⟩)
    | dict r =>
      exact Finset.mem_union_right _ (Finset.mem_image.2 ⟨r.index, Finset.mem_range.2 hstored, rfl⟩)
    | _ => cases hw
  calc ancestors.length = ancestors.toFinset.card := (List.toFinset_card_of_nodup hnodup).symm
    _ ≤ all.card := Finset.card_le_card hsub
    _ ≤ h.arrays.size + h.dicts.size := by
      refine (Finset.card_union_le _ _).trans (Nat.add_le_add ?_ ?_)
      · exact Finset.card_image_le.trans (Finset.card_range _).le
      · exact Finset.card_image_le.trans (Finset.card_range _).le

end Heap

/-! ## Runs -/

open Heap

/-- What a run that copies a value of `h` has to be: it gives a copy, or the value contains itself. Only
the heap has changed, and it has grown. -/
def CloneOutcome (h : Heap) (v : Value) (fuel : Nat) (e : Engine) :
    EStateM.Result Failure Engine Value → Prop
  | .ok v' e' => e' = { e with heap := e'.heap } ∧ h.Copied e.heap e'.heap v v' ∧ h.Shallow v fuel
  | .error failure e' => e' = { e with heap := e'.heap } ∧ e.heap.Grows e'.heap ∧
      failure = .runtime .selfContaining ∧ h.SelfContaining v

/-- The same for values that are copied one after the other. -/
def CloneAllOutcome (h : Heap) (vs : List Value) (fuel : Nat) (e : Engine) :
    EStateM.Result Failure Engine (List Value) → Prop
  | .ok vs' e' => e' = { e with heap := e'.heap } ∧ h.CopiedAll e.heap e'.heap vs vs' ∧
      ∀ v ∈ vs, h.Shallow v fuel
  | .error failure e' => e' = { e with heap := e'.heap } ∧ e.heap.Grows e'.heap ∧
      failure = .runtime .selfContaining ∧ ∃ v ∈ vs, h.SelfContaining v

namespace Script

variable {h : Heap} {v : Value} {vs : List Value} {fuel : Nat} {e : Engine}

theorem mapM_outcome {f : Value → Script Value}
    (hf : ∀ v ∈ vs, ∀ e : Engine, h.Grows e.heap → CloneOutcome h v fuel e (f v e))
    (he : h.Grows e.heap) : CloneAllOutcome h vs fuel e (vs.mapM f e) := by
  induction vs generalizing e with
  | nil => exact ⟨rfl, .nil h e.heap, by simp⟩
  | cons v vs ih =>
    have hhead := hf v (List.mem_cons_self ..) e he
    rw [List.mapM_cons]
    change CloneAllOutcome h (v :: vs) fuel e (EStateM.bind (f v) _ e)
    rw [EStateM.bind]
    split
    · rename_i v' e₁ hrun
      rw [hrun] at hhead
      obtain ⟨hrest, hcopy, hshallow⟩ := hhead
      have htail := ih (fun w hw => hf w (List.mem_cons_of_mem _ hw)) (he.trans hcopy.grows)
      change CloneAllOutcome h (v :: vs) fuel e (EStateM.bind (vs.mapM f) _ e₁)
      rw [EStateM.bind]
      split
      · rename_i vs' e₂ hrun'
        rw [hrun'] at htail
        obtain ⟨hrest', hcopies, hall⟩ := htail
        refine ⟨?_, .cons hcopy hcopies, List.forall_mem_cons.2 ⟨hshallow, hall⟩⟩
        rw [hrest', hrest]
      · rename_i failure e₂ hrun'
        rw [hrun'] at htail
        obtain ⟨hrest', hgrows, hfailure, w, hw, hself⟩ := htail
        refine ⟨?_, hcopy.grows.trans hgrows, hfailure, w, List.mem_cons_of_mem _ hw, hself⟩
        rw [hrest', hrest]
    · rename_i failure e₁ hrun
      rw [hrun] at hhead
      obtain ⟨hrest, hgrows, hfailure, hself⟩ := hhead
      exact ⟨hrest, hgrows, hfailure, v, List.mem_cons_self .., hself⟩

/-- The entries of a dictionary are copied like their values, one after the other. -/
theorem mapM_entries (f : Value → Script Value) (entries : List (String × Value)) :
    (entries.mapM fun (key, item) => do
      let copy ← f item
      return (key, copy)) = do
      let copies ← (entries.map (·.2)).mapM f
      return (entries.map (·.1)).zip copies := by
  induction entries with
  | nil => rfl
  | cons entry entries ih =>
    simp only [List.mapM_cons, List.map_cons, ih, bind_assoc, pure_bind, List.zip_cons_cons]

/-- A container is copied by copying its parts and making a container of the copies. -/
theorem container_outcome {f : Value → Script Value} {make : List Value → Script Value}
    (hparts : ∀ w, (∃ link, h.follow? v link = some w) ↔ w ∈ vs)
    (hall : CloneAllOutcome h vs fuel e (vs.mapM f e))
    (hmake : ∀ vs' e₁, h.CopiedAll e.heap e₁.heap vs vs' → ∃ v' e₂, make vs' e₁ = .ok v' e₂ ∧
      e₂ = { e₁ with heap := e₂.heap } ∧ h.Copied e.heap e₂.heap v v') :
    CloneOutcome h v (fuel + 1) e ((vs.mapM f >>= make) e) := by
  change CloneOutcome h v (fuel + 1) e (EStateM.bind (vs.mapM f) make e)
  rw [EStateM.bind]
  split
  · rename_i vs' e₁ hrun
    rw [hrun] at hall
    obtain ⟨hrest, hcopies, hshallow⟩ := hall
    obtain ⟨v', e₂, hmade, hrest', hcopy⟩ := hmake vs' e₁ hcopies
    rw [hmade]
    refine ⟨by rw [hrest', hrest], hcopy, fun path w hpath => ?_⟩
    cases path with
    | nil => exact Nat.succ_pos fuel
    | cons link path =>
      obtain ⟨x, hx, hpath⟩ := Option.bind_eq_some_iff.1 hpath
      exact Nat.succ_lt_succ (hshallow x ((hparts x).1 ⟨link, hx⟩) path w hpath)
  · rename_i failure e₁ hrun
    rw [hrun] at hall
    obtain ⟨hrest, hgrows, hfailure, w, hw, hself⟩ := hall
    obtain ⟨link, hlink⟩ := (hparts w).2 hw
    exact ⟨hrest, hgrows, hfailure, hself.part (.head link hlink (.refl h w))⟩

theorem parts_array (h : Heap) (r : ArrayRef) (w : Value) :
    (∃ link, h.follow? (.array r) link = some w) ↔ w ∈ (h.array r).toList := by
  constructor
  · rintro ⟨link, hlink⟩
    cases link with
    | item i => exact List.mem_of_getElem? ((Array.getElem?_toList ..).trans hlink)
    | entry key => cases hlink
  · intro hw
    obtain ⟨i, hi⟩ := List.getElem?_of_mem hw
    exact ⟨.item i, (Array.getElem?_toList ..).symm.trans hi⟩

theorem parts_dict (h : Heap) (r : DictRef) (w : Value) :
    (∃ link, h.follow? (.dict r) link = some w) ↔ w ∈ (h.dict r).toList.map (·.2) := by
  constructor
  · rintro ⟨link, hlink⟩
    cases link with
    | item i => cases hlink
    | entry key =>
      exact List.mem_map.2 ⟨(key, w), Std.TreeMap.mem_toList_iff_getElem?_eq_some.2 hlink, rfl⟩
  · intro hw
    obtain ⟨⟨key, w⟩, hmem, rfl⟩ := List.mem_map.1 hw
    exact ⟨.entry key, Std.TreeMap.mem_toList_iff_getElem?_eq_some.1 hmem⟩

/-- A run that meets an ancestor is refused, since the ancestor is a part of itself. -/
theorem refused_outcome {ancestors : List Value} (ha : h.Above ancestors v) (hmem : v ∈ ancestors) :
    CloneOutcome h v fuel e (raise .selfContaining e) := by
  obtain ⟨path, hne, hpath⟩ := ha v hmem
  exact ⟨rfl, .refl _, rfl, v, path, .refl h v, hne, hpath⟩

theorem deepClone_outcome (fuel : Nat) {ancestors : List Value} (hv : h.Encloses v)
    (he : h.Grows e.heap) (ha : h.Above ancestors v) (hnodup : ancestors.Nodup)
    (hfuel : h.arrays.size + h.dicts.size + 2 ≤ fuel + ancestors.length) :
    CloneOutcome h v fuel e (deepClone fuel ancestors v e) := by
  induction fuel generalizing ancestors v e with
  | zero =>
    have hlength := length_le_of_above ha hnodup
    omega
  | succ fuel ih =>
    -- What is left of the fuel is enough for the parts, which have one more ancestor.
    have hparts : v ∉ ancestors → ∀ w, (∃ link, h.follow? v link = some w) → ∀ e : Engine,
        h.Grows e.heap → CloneOutcome h w fuel e (deepClone fuel (v :: ancestors) w e) := by
      rintro hmem w ⟨link, hlink⟩ e he
      refine ih (hv.follow hlink) he (ha.follow hlink) (List.nodup_cons.2 ⟨hmem, hnodup⟩) ?_
      rw [List.length_cons]
      omega
    cases v with
    | array r =>
      by_cases hmem : Value.array r ∈ ancestors
      · rw [deepClone, if_pos (List.contains_iff_mem.2 hmem)]
        exact refused_outcome ha hmem
      have hrun : deepClone (fuel + 1) ancestors (.array r) e =
          ((e.heap.array r).toList.mapM (deepClone fuel (.array r :: ancestors)) >>=
            fun copies => newArray copies.toArray) e := by
        rw [deepClone, if_neg (mt List.contains_iff_mem.1 hmem)]
        change ((e.heap.array r).mapM _ >>= fun copies => newArray copies) e = _
        rw [Array.mapM_eq_mapM_toList, bind_map_left]
      rw [hrun, he.array_eq (hv _ (.refl h _))]
      refine container_outcome (parts_array h r) (mapM_outcome (fun w hw =>
        hparts hmem w ((parts_array h r w).2 hw)) he) fun vs' e₁ hcopies => ?_
      exact ⟨_, _, rfl, rfl, hcopies.newArray⟩
    | dict r =>
      by_cases hmem : Value.dict r ∈ ancestors
      · rw [deepClone, if_pos (List.contains_iff_mem.2 hmem)]
        exact refused_outcome ha hmem
      have hrun : deepClone (fuel + 1) ancestors (.dict r) e =
          (((e.heap.dict r).toList.map (·.2)).mapM (deepClone fuel (.dict r :: ancestors)) >>=
            fun copies => newDict (.ofList (((e.heap.dict r).toList.map (·.1)).zip copies))) e := by
        rw [deepClone, if_neg (mt List.contains_iff_mem.1 hmem)]
        change ((e.heap.dict r).toList.mapM _ >>= fun copies : List (String × Value) =>
          newDict (.ofList copies)) e = _
        rw [mapM_entries, bind_assoc]
        rfl
      rw [hrun, he.dict_eq (hv _ (.refl h _))]
      refine container_outcome (parts_dict h r) (mapM_outcome (fun w hw =>
        hparts hmem w ((parts_dict h r w).2 hw)) he) fun vs' e₁ hcopies => ?_
      exact ⟨_, _, rfl, rfl, hcopies.newDict⟩
    | _ =>
      refine ⟨rfl, .leaf rfl, fun path w hpath => ?_⟩
      cases path with
      | nil => exact Nat.succ_pos fuel
      | cons link path => cases hpath

/-- A deep copy fails if the value contains itself, and is a copy if it does not. -/
theorem deepCopy_outcome (e : Engine) (v : Value) (hv : e.heap.Encloses v) :
    ∃ k, e.heap.Grows k ∧
      (e.heap.SelfContaining v ∧
          deepCopy v e = .error (.runtime .selfContaining) { e with heap := k } ∨
        ¬ e.heap.SelfContaining v ∧
          ∃ v', deepCopy v e = .ok v' { e with heap := k } ∧ e.heap.Copied e.heap k v v') := by
  have hclone : CloneOutcome e.heap v (e.heap.arrays.size + e.heap.dicts.size + 2) e
      (deepCopy v e) :=
    deepClone_outcome _ hv (.refl _) (by simp [Above]) List.nodup_nil (Nat.le_refl _)
  cases hrun : deepCopy v e with
  | ok v' e' =>
    rw [hrun] at hclone
    obtain ⟨hrest, hcopy, hshallow⟩ := hclone
    refine ⟨e'.heap, hcopy.grows, .inr ⟨fun hself => not_shallow hself hshallow, v', ?_, hcopy⟩⟩
    rw [← hrest]
  | error failure e' =>
    rw [hrun] at hclone
    obtain ⟨hrest, hgrows, rfl, hself⟩ := hclone
    refine ⟨e'.heap, hgrows, .inl ⟨hself, ?_⟩⟩
    rw [← hrest]

theorem runArray_assignStruct (r : ArrayRef) (args : Array Value) (e : Engine) :
    runArray (.array r) args .assignStruct e =
      match deepCopy (argument args 0) e with
      | .ok v' e' =>
        .ok .void { e' with heap := e'.heap.modifyArray r fun _ => e'.heap.flatten v' }
      | .error failure e' => .error failure e' := by
  change EStateM.bind (deepCopy (argument args 0)) _ e = _
  rw [EStateM.bind]
  split <;> rename_i hrun <;> rw [hrun]
  rfl

end Script

/-! ## Writes -/

/-- A write to an array or a dictionary. -/
inductive ContainerWrite where
  | array (r : ArrayRef) (f : Array Value → Array Value)
  | dict (r : DictRef) (f : Dict → Dict)

/-- The container that is written to. -/
def ContainerWrite.target : ContainerWrite → Value
  | .array r _ => .array r
  | .dict r _ => .dict r

namespace Heap

variable {h k : Heap} {v v' w : Value}

def applyWrite (h : Heap) : ContainerWrite → Heap
  | .array r f => h.modifyArray r f
  | .dict r f => h.modifyDict r f

/-- The heap after writes, in order. -/
def applyWrites (h : Heap) (writes : List ContainerWrite) : Heap :=
  writes.foldl applyWrite h

theorem sameWithin_modifyDict {r : DictRef} (f : Dict → Dict) (hr : ¬ h.HasPart v (.dict r)) :
    h.SameWithin (h.modifyDict r f) v where
  array _ _ := rfl
  dict s hs := by
    have hne : s ≠ r := fun heq => hr (heq ▸ hs)
    have hindex : r.index ≠ s.index := fun heq => hne (by cases r; cases s; simp_all)
    simp [modifyDict, dict, Array.getD_eq_getD_getElem?, Array.getElem?_modify, hindex]

/-- Writes that go to no part of a value are not seen through it. -/
theorem at?_applyWrites {writes : List ContainerWrite}
    (hwrites : ∀ write ∈ writes, ¬ h.HasPart v write.target) (path : List Link) :
    (h.applyWrites writes).at? v path = h.at? v path := by
  induction writes generalizing h with
  | nil => rfl
  | cons write writes ih =>
    have hsame : h.SameWithin (h.applyWrite write) v := by
      have htarget := hwrites write (List.mem_cons_self ..)
      cases write with
      | array r f => exact sameWithin_modifyArray f htarget
      | dict r f => exact sameWithin_modifyDict f htarget
    have hrest : ∀ next ∈ writes, ¬ (h.applyWrite write).HasPart v next.target := by
      rintro next hnext ⟨path, hpath⟩
      rw [hsame.at?_eq] at hpath
      exact hwrites next (List.mem_cons_of_mem _ hnext) ⟨path, hpath⟩
    exact (ih hrest).trans (hsame.at?_eq path)

/-- No write to one of two values is seen through the other one. -/
structure Separate (h : Heap) (v w : Value) : Prop where
  left : ∀ writes, (∀ write ∈ writes, h.HasPart w write.target) →
    ∀ path, (h.applyWrites writes).at? v path = h.at? v path
  right : ∀ writes, (∀ write ∈ writes, h.HasPart v write.target) →
    ∀ path, (h.applyWrites writes).at? w path = h.at? w path

theorem ContainerWrite.isContainer_target (write : ContainerWrite) :
    write.target.isContainer = true := by
  cases write <;> rfl

theorem Unshared.separate (hvw : h.Unshared v w) : h.Separate v w where
  left writes hwrites := at?_applyWrites fun write hmem hpart => by
    have hleaf := hvw write.target hpart (hwrites write hmem)
    rw [ContainerWrite.isContainer_target] at hleaf
    cases hleaf
  right writes hwrites := at?_applyWrites fun write hmem hpart => by
    have hleaf := hvw write.target (hwrites write hmem) hpart
    rw [ContainerWrite.isContainer_target] at hleaf
    cases hleaf

/-- A copy has nothing in common with what it was copied from. -/
theorem Copied.unshared (hv : h.Encloses v) (hc : h.Copied h k v v') : k.Unshared v v' :=
  fun x ⟨path, hx⟩ hx' => by
    rw [(hc.grows.sameWithin hv).at?_eq] at hx
    by_contra hcontainer
    exact (hc.fresh x hx' (Bool.eq_true_of_not_eq_false hcontainer)).1 (hv x ⟨path, hx⟩)

end Heap

/-! ## The theorem -/

/-- The heap has grown to `k`, but a deep copy of `v` has failed. So does assigning one to an array,
which leaves the array as it was. -/
structure Engine.RefusesCopy (e : Engine) (v : Value) (k : Heap) : Prop where
  grows : e.heap.Grows k
  run : Script.deepCopy v e = .error (.runtime .selfContaining) { e with heap := k }
  assign : ∀ r args, e.heap.Stores (.array r) → Script.argument args 0 = v →
    Script.runArray (.array r) args .assignStruct e =
      .error (.runtime .selfContaining) { e with heap := k } ∧ k.array r = e.heap.array r

/-- The heap has grown to `k`, with a deep copy `v'` of `v`. An array that is assigned the copy, be it a
part of `v` or not, takes over the copy of what `v` was before, which stays what it is. If it is no part
of `v`, it is separate from `v` as well. -/
structure Engine.MakesCopy (e : Engine) (v v' : Value) (k : Heap) : Prop where
  run : Script.deepCopy v e = .ok v' { e with heap := k }
  copied : e.heap.Copied e.heap k v v'
  separate : k.Separate v v'
  assign : ∀ r args, e.heap.Stores (.array r) → Script.argument args 0 = v → ∃ k',
    Script.runArray (.array r) args .assignStruct e = .ok .void { e with heap := k' } ∧
      k' = k.modifyArray r (fun _ => k.flatten v') ∧ k'.array r = k.flatten v' ∧
      e.heap.HoldsCopy k' r v ∧
      (∀ path, Option.Rel Value.Alike (e.heap.at? v path) (k'.at? v' path)) ∧
      (¬ e.heap.HasPart v (.array r) → k'.Separate v (.array r))

/-- A deep copy fails exactly if the value contains itself; otherwise it is a copy that is separate
from the value. -/
theorem deep_copy_is_separate (e : Engine) (v : Value) (hv : e.heap.Encloses v) :
    ∃ k, e.heap.SelfContaining v ∧ e.RefusesCopy v k ∨
      ¬ e.heap.SelfContaining v ∧ ∃ v', e.MakesCopy v v' k := by
  obtain ⟨k, hgrows, ⟨hself, hrun⟩ | ⟨hself, v', hrun, hcopy⟩⟩ := Script.deepCopy_outcome e v hv
  · refine ⟨k, .inl ⟨hself, hgrows, hrun, fun r args hr hargs => ⟨?_, hgrows.array_eq hr⟩⟩⟩
    rw [Script.runArray_assignStruct, hargs, hrun]
  · refine ⟨k, .inr ⟨hself, v', hrun, hcopy, (hcopy.unshared hv).separate, ?_⟩⟩
    intro r args hr hargs
    have hstored := hgrows.stores hr
    -- The array was there before the copy, so that it is no part of the copy.
    have hcopied : ¬ k.HasPart v' (.array r) := hcopy.not_hasPart hr
    refine ⟨_, ?_, rfl, array_modifyArray hstored _, hcopy.holdsCopy hr, fun path => ?_, fun hpart => ?_⟩
    · rw [Script.runArray_assignStruct, hargs, hrun]
    · rw [(sameWithin_modifyArray _ hcopied).at?_eq]
      exact hcopy.alike path
    · have hpart' : ¬ k.HasPart v (.array r) := fun ⟨path, hpath⟩ =>
        hpart ⟨path, by rwa [← (hgrows.sameWithin hv).at?_eq]⟩
      exact ((hcopy.unshared hv).taken hstored hpart' hcopied).separate

/-- Parts of a value are stored if all items and entries of the heap are. -/
theorem Heap.encloses_of_closed {h : Heap} {v : Value} (hv : h.Stores v)
    (hclosed : ∀ w link x, h.follow? w link = some x → h.Stores x) : h.Encloses v := by
  rintro w ⟨path, hpath⟩
  induction path generalizing v with
  | nil => exact Option.some.inj hpath ▸ hv
  | cons link path ih =>
    obtain ⟨x, hx, hpath⟩ := Option.bind_eq_some_iff.1 hpath
    exact ih (hclosed v link x hx) hpath

/-- An engine with an array that holds another one twice, and a dictionary that holds it once more. -/
def sharing : Engine where
  limits := { }
  heap := {
    arrays := #[#[.array ⟨1⟩, .array ⟨1⟩, .dict ⟨0⟩], #[.number .one]]
    dicts := #[(∅ : Dict).insert "k" (.array ⟨1⟩)] }
  globalScope := ⟨0⟩
  numberClass := ⟨0⟩
  stringClass := ⟨0⟩
  arrayClass := ⟨0⟩
  dictClass := ⟨0⟩

/-- How many links there can be below a value of `sharing`. -/
def sharingHeight : Value → Nat
  | .array ⟨0⟩ => 3
  | .dict ⟨0⟩ => 2
  | .array ⟨1⟩ => 1
  | _ => 0

theorem follow?_sharing {w x : Value} {link : Link} (hx : sharing.heap.follow? w link = some x) :
    w = .array ⟨0⟩ ∧ (x = .array ⟨1⟩ ∨ x = .dict ⟨0⟩) ∨ w = .array ⟨1⟩ ∧ x = .number .one ∨
      w = .dict ⟨0⟩ ∧ x = .array ⟨1⟩ := by
  have hstored := stores_of_follow? hx
  cases w with
  | array r =>
    obtain ⟨i⟩ := r
    have hmem := (Script.parts_array _ _ _).1 ⟨link, hx⟩
    have hi : i = 0 ∨ i = 1 := by
      have hlt : i < 2 := hstored
      omega
    rcases hi with rfl | rfl
    · have hmem : x ∈ [Value.array ⟨1⟩, .array ⟨1⟩, .dict ⟨0⟩] := hmem
      simp only [List.mem_cons, List.not_mem_nil, or_false] at hmem
      exact .inl ⟨rfl, by tauto⟩
    · exact .inr (.inl ⟨rfl, List.mem_singleton.1 hmem⟩)
  | dict r =>
    obtain ⟨i⟩ := r
    obtain rfl : i = 0 := Nat.lt_one_iff.1 hstored
    cases link with
    | item i => cases hx
    | entry key =>
      have hentry : ((∅ : Dict).insert "k" (.array ⟨1⟩))[key]? = some x := hx
      rw [Std.TreeMap.getElem?_insert] at hentry
      split at hentry
      · exact .inr (.inr ⟨rfl, (Option.some.inj hentry).symm⟩)
      · simp at hentry
  | _ => cases hx

theorem deep_copy_is_separate_sharing :
    sharing.heap.Encloses (.array ⟨0⟩) ∧ ∃ v' k, sharing.MakesCopy (.array ⟨0⟩) v' k := by
  have hclosed : ∀ w link x, sharing.heap.follow? w link = some x → sharing.heap.Stores x := by
    intro w link x hx
    rcases follow?_sharing hx with ⟨-, rfl | rfl⟩ | ⟨-, rfl⟩ | ⟨-, rfl⟩
    · exact Nat.one_lt_two
    · exact Nat.one_pos
    · trivial
    · exact Nat.one_lt_two
  have henclosed : sharing.heap.Encloses (.array ⟨0⟩) := encloses_of_closed Nat.two_pos hclosed
  have hacyclic : ¬ sharing.heap.SelfContaining (.array ⟨0⟩) := by
    refine not_selfContaining_of_height sharingHeight fun w link x hx => ?_
    rcases follow?_sharing hx with ⟨rfl, rfl | rfl⟩ | ⟨rfl, rfl⟩ | ⟨rfl, rfl⟩ <;> decide
  refine ⟨henclosed, ?_⟩
  obtain ⟨k, ⟨hself, -⟩ | ⟨-, v', hmakes⟩⟩ :=
    deep_copy_is_separate sharing (.array ⟨0⟩) henclosed
  · exact absurd hself hacyclic
  · exact ⟨v', k, hmakes⟩

end ScriptEngine
