import ScriptEngine.Access.Class
import ScriptEngine.Machine
import ScriptEngine.Proofs.Class.Hierarchy
import ScriptEngine.Proofs.Tame

/-!
# Members of classes and instances

**Where a member is.** An object has a member itself, or the first class has it that a search finds
depth first: an instance searches its class with all ancestors, a class its parents with all of
theirs (`Heap.Resolves`). There is at most one such place, and none exactly if neither the object nor
any class behind it has the member (`Heap.member_or_missing`).

**Access.** Reading and writing look at the same place (`Coherent`). Reading binds properties, and
functions from elsewhere, to the object. Writing runs the setter of a property bound to the object;
without a property it gives the object a member of its own.

**Isolation.** Any number of writes that meet no property change the members they are for, and no
other member of any object (`Isolated`), so objects that inherit from none of those written read what
they read before.

Main statement: `member_access_is_coherent_and_isolated`.
-/

namespace ScriptEngine

/-! ## Searches in changed tables -/

section Search

variable {next : ClassRef → List ClassRef} {table table' : ClassRef → Option Value}
  {c d : ClassRef} {roots : List ClassRef}

theorem Finds.congr (h : Finds next table c d) (heq : ∀ a, Reaches next c a → table' a = table a) :
    Finds next table' c d := by
  induction h with
  | here hc => exact .here (by rwa [heq _ .refl])
  | @behind c p d before after hc hnext hbefore _ ih =>
    have hmem : ∀ q ∈ before ++ [p], q ∈ next c := by
      intro q hq
      rw [hnext]
      simp only [List.mem_append, List.mem_cons] at hq ⊢
      tauto
    refine .behind (by rwa [heq _ .refl]) hnext (fun q hq a ha => ?_) (ih fun a ha => ?_)
    · rw [heq a (.head (hmem q (by simp [hq])) ha)]
      exact hbefore q hq a ha
    · exact heq a (.head (hmem p (by simp)) ha)

theorem FindsAmong.congr (h : FindsAmong next table roots d)
    (heq : ∀ p ∈ roots, ∀ a, Reaches next p a → table' a = table a) :
    FindsAmong next table' roots d := by
  obtain ⟨before, p, after, rfl, hbefore, hp⟩ := h
  refine ⟨before, p, after, rfl, fun q hq a ha => ?_, hp.congr (heq p (by simp))⟩
  rw [heq q (by simp [hq]) a ha]
  exact hbefore q hq a ha

end Search

namespace Heap

variable {h h' : Heap} {o d : ClassRef} {name : String} {v : Value}

/-! ## Where a member is -/

/-- What an object inherits from: an instance from its class, a class from its parents. -/
def bases (h : Heap) (o : ClassRef) : List ClassRef :=
  match (h.classObject o).defining with
  | some d => [d]
  | none => h.parents o

/-- A class behind an object. -/
def Behind (h : Heap) (o a : ClassRef) : Prop :=
  ∃ p ∈ h.bases o, Reaches h.parents p a

/-- The object that has a member which another object reads or writes. -/
inductive Resolves (h : Heap) (o : ClassRef) (name : String) : ClassRef → Prop where
  | own (hown : h.ownMember? name o ≠ none) : Resolves h o name o
  | inherited {d : ClassRef} (hown : h.ownMember? name o = none)
      (hd : FindsAmong h.parents (h.ownMember? name) (h.bases o) d) : Resolves h o name d

theorem inherited?_eq : h.inherited? o name = (h.bases o).findSome? (h.member? · name) := by
  unfold inherited? bases
  cases (h.classObject o).defining with
  | none => rfl
  | some d => exact List.findSome?_singleton.symm

theorem inherited?_eq_some (hh : h.Ordered) : h.inherited? o name = some v ↔
    ∃ d, FindsAmong h.parents (h.ownMember? name) (h.bases o) d ∧ h.ownMember? name d = some v := by
  rw [inherited?_eq]
  exact findSome?_roots (traverses_ancestry hh) hh fun p _ =>
    findSome?_traversal (traverses_ancestry hh) hh p

theorem inherited?_eq_none (hh : h.Ordered) :
    h.inherited? o name = none ↔ ∀ a, h.Behind o a → h.ownMember? name a = none := by
  rw [inherited?_eq, List.findSome?_eq_none_iff]
  have hnone : ∀ p, h.member? p name = none ↔ ∀ a, Reaches h.parents p a → h.ownMember? name a = none :=
    findSome?_traversal_eq_none (traverses_ancestry hh) hh
  constructor
  · rintro hall a ⟨p, hp, ha⟩
    exact (hnone p).1 (hall p hp) a ha
  · exact fun hall p hp => (hnone p).2 fun a ha => hall a ⟨p, hp, ha⟩

/-- The member that is read or written, if there is one. -/
theorem slot_eq_some (hh : h.Ordered) :
    (h.ownMember? name o).or (h.inherited? o name) = some v ↔
      ∃ d, h.Resolves o name d ∧ h.ownMember? name d = some v := by
  rcases hown : h.ownMember? name o with _ | w
  · rw [Option.none_or, inherited?_eq_some hh]
    refine exists_congr fun d => and_congr_left fun _ => ⟨.inherited hown, fun hd => ?_⟩
    cases hd with
    | own hsome => exact absurd hown hsome
    | inherited _ hd => exact hd
  · rw [Option.some_or]
    constructor
    · intro hv
      exact ⟨o, .own (hown ▸ Option.some_ne_none _), hown.trans hv⟩
    · rintro ⟨d, hd, hv⟩
      cases hd with
      | own _ => rw [← hown, hv]
      | inherited hnone _ => rw [hnone] at hown; cases hown

theorem Resolves.unique {d' : ClassRef} (hd : h.Resolves o name d) (hd' : h.Resolves o name d') :
    d' = d := by
  cases hd with
  | own hown =>
    cases hd' with
    | own _ => rfl
    | inherited hnone _ => exact absurd hnone hown
  | inherited hnone hd =>
    cases hd' with
    | own hown => exact absurd hnone hown
    | inherited _ hd' => exact hd.unique hd'

/-- A member is at one place, or neither the object nor anything behind it has it. -/
theorem member_or_missing (hh : h.Ordered) (o : ClassRef) (name : String) :
    (∃ d v, h.Resolves o name d ∧ h.ownMember? name d = some v ∧ ∀ d', h.Resolves o name d' → d' = d) ∨
      h.ownMember? name o = none ∧ ∀ a, h.Behind o a → h.ownMember? name a = none := by
  rcases hslot : (h.ownMember? name o).or (h.inherited? o name) with _ | v
  · right
    rw [Option.or_eq_none_iff, inherited?_eq_none hh] at hslot
    exact hslot
  · obtain ⟨d, hd, hv⟩ := (slot_eq_some hh).1 hslot
    exact .inl ⟨d, v, hd, hv, fun d' => hd.unique⟩

/-- A member that is found elsewhere is not the own one. -/
theorem ne_of_inherited (hown : h.ownMember? name o = none) (hv : h.ownMember? name d = some v) :
    d ≠ o := by
  rintro rfl
  rw [hown] at hv
  cases hv

theorem Resolves.eq_or_behind (hd : h.Resolves o name d) : d = o ∨ h.Behind o d := by
  cases hd with
  | own _ => exact .inl rfl
  | inherited _ hd =>
    obtain ⟨before, p, after, hbases, -, hp⟩ := hd
    exact .inr ⟨p, by simp [hbases], hp.reaches⟩

/-- Where a member is depends on the members of the object and the classes behind it. -/
theorem Resolves.congr (hd : h.Resolves o name d) (hbases : h'.bases o = h.bases o)
    (hparents : h'.parents = h.parents) (hown : h'.ownMember? name o = h.ownMember? name o)
    (hbehind : ∀ a, h.Behind o a → h'.ownMember? name a = h.ownMember? name a) :
    h'.Resolves o name d := by
  cases hd with
  | own hsome => exact .own (by rwa [hown])
  | inherited hnone hd =>
    refine .inherited (by rwa [hown]) ?_
    rw [hparents, hbases]
    exact hd.congr fun p hp a ha => hbehind a ⟨p, hp, ha⟩

end Heap

/-! ## Access -/

/-- What reading a property as a member of an object does. -/
def Script.getterOf (call : Invoke) (o : ClassRef) (e : Engine) (p : Property) : Outcome Value :=
  match p.getter with
  | some g => call { g with receiver := .classObj o } #[] e
  | none => .error (.runtime .noGetter) e

/-- What writing a property as a member of an object does. -/
def Script.setterOf (call : Invoke) (o : ClassRef) (v : Value) (e : Engine) (p : Property) :
    Outcome Unit :=
  match p.setter with
  | some s => discard (call { s with receiver := .classObj o } #[v]) e
  | none => .error (.runtime .noSetter) e

/-- What reading a member of an object gives that was found at `d`: a property, and a function from
elsewhere, has the object as its receiver. -/
def Script.memberAt (call : Invoke) (o d : ClassRef) (e : Engine) : Value → Outcome Value
  | .property r => getterOf call o e (e.heap.property r)
  | .function r =>
    if d = o then .ok (.function r) e
    else .ok (.function ⟨e.heap.functions.size⟩) { e with heap := { e.heap with
      functions := e.heap.functions.push { e.heap.function r with receiver := .classObj o } } }
  | v => .ok v e

/-- Reading and writing a member of an object go to the same place; see the head of the module. -/
structure Coherent (call : Invoke) (e : Engine) (o : ClassRef) (name : String) : Prop where
  /-- There is one place, or neither the object nor anything behind it has the member. -/
  placed : (∃ d v, e.heap.Resolves o name d ∧ e.heap.ownMember? name d = some v ∧
      ∀ d', e.heap.Resolves o name d' → d' = d) ∨
    e.heap.ownMember? name o = none ∧ ∀ a, e.heap.Behind o a → e.heap.ownMember? name a = none
  found : ∀ d v, e.heap.Resolves o name d → e.heap.ownMember? name d = some v →
    Script.getField call o name e = Script.memberAt call o d e v
  missing : e.heap.ownMember? name o = none →
    (∀ a, e.heap.Behind o a → e.heap.ownMember? name a = none) →
      Script.getField call o name e =
        .error (.runtime (.missingMember name (e.heap.classObject o).name)) e
  property : ∀ d r, e.heap.Resolves o name d → e.heap.ownMember? name d = some (.property r) →
    ∀ v, Script.setField call o name v e = Script.setterOf call o v e (e.heap.property r)
  plain : (∀ d r, e.heap.Resolves o name d → e.heap.ownMember? name d ≠ some (.property r)) →
    ∀ v, Script.setField call o name v e = .ok () { e with heap := e.heap.setMember o name v }

theorem Script.readBound_eq (call : Invoke) (r : PropertyRef) (o : ClassRef) (e : Engine) :
    readBound call r (.classObj o) e = getterOf call o e (e.heap.property r) := by
  unfold readBound getterOf
  rw [getHeap_bind_apply]
  generalize e.heap.property r = p
  rcases p with ⟨_ | g, s⟩ <;> rfl

theorem Script.writeBound_eq (call : Invoke) (r : PropertyRef) (o : ClassRef) (v : Value)
    (e : Engine) :
    writeBound call r (.classObj o) v e = setterOf call o v e (e.heap.property r) := by
  unfold writeBound setterOf
  rw [getHeap_bind_apply]
  generalize e.heap.property r = p
  rcases p with ⟨g, _ | s⟩ <;> rfl

variable {e e' : Engine}

theorem coherent (call : Invoke) (he : e.heap.Ordered) (o : ClassRef) (name : String) :
    Coherent call e o name where
  placed := Heap.member_or_missing he o name
  found d v hd hv := by
    unfold Script.getField
    rw [Script.getHeap_bind_apply]
    cases hd with
    | own _ =>
      rw [hv]
      cases v with
      | property r => exact Script.readBound_eq call r o e
      | function r => exact (if_pos rfl).symm
      | _ => rfl
    | inherited hown hd =>
      rw [hown, (Heap.inherited?_eq_some he).2 ⟨d, hd, hv⟩]
      cases v with
      | property r => exact Script.readBound_eq call r o e
      | function r => exact (if_neg (Heap.ne_of_inherited hown hv)).symm
      | _ => rfl
  missing hown hbehind := by
    unfold Script.getField
    rw [Script.getHeap_bind_apply, hown, (Heap.inherited?_eq_none he).2 hbehind]
    rfl
  property d r hd hr v := by
    unfold Script.setField
    rw [Script.getHeap_bind_apply, (Heap.slot_eq_some he).2 ⟨d, hd, hr⟩]
    exact Script.writeBound_eq call r o v e
  plain hplain v := by
    unfold Script.setField
    rw [Script.getHeap_bind_apply]
    rcases hslot : (e.heap.ownMember? name o).or (e.heap.inherited? o name) with _ | w
    · rfl
    · obtain ⟨d, hd, hw⟩ := (Heap.slot_eq_some he).1 hslot
      cases w with
      | property r => exact absurd hw (hplain d r hd)
      | _ => rfl

/-! ## Isolation -/

/-- A value that is written to a member of an object. -/
structure FieldWrite where
  object : ClassRef
  name : String
  value : Value

/-- Writes one behind the other. -/
def Script.writeAll (call : Invoke) (ws : List FieldWrite) : Script Unit :=
  ws.forM fun w => setField call w.object w.name w.value

namespace Heap

variable {h : Heap} {o c : ClassRef} {name : String} {ws : List FieldWrite}

/-- The heap after writes that give objects members of their own. -/
def writeAll (h : Heap) (ws : List FieldWrite) : Heap :=
  ws.foldl (fun h w => h.setMember w.object w.name w.value) h

/-- Writes to objects that there are, none of which meets a property when its turn comes. -/
def PlainWrites : Heap → List FieldWrite → Prop
  | _, [] => True
  | h, w :: ws => w.object.index < h.classes.size ∧
      (∀ d r, h.Resolves w.object w.name d → h.ownMember? w.name d ≠ some (.property r)) ∧
      (h.setMember w.object w.name w.value).PlainWrites ws

@[simp] theorem size_setMember (v : Value) :
    (h.setMember o name v).classes.size = h.classes.size := by
  simp [setMember, modifyClass]

/-- One write changes one member of one object. -/
theorem ownMember?_setMember (ho : o.index < h.classes.size) (name' : String) (v : Value) :
    (h.setMember o name v).ownMember? name' c =
      if c = o ∧ name' = name then some v else h.ownMember? name' c := by
  unfold ownMember? setMember
  rw [classObject_modifyClass ho]
  by_cases hc : c = o
  · subst hc
    rw [if_pos rfl, Std.HashMap.getElem?_insert]
    simp only [true_and, beq_iff_eq, eq_comm (a := name)]
  · simp only [hc, false_and, if_false]

theorem classObject_setMember (ho : o.index < h.classes.size) (v : Value) :
    (h.setMember o name v).classObject c =
      { h.classObject c with members := ((h.setMember o name v).classObject c).members } := by
  unfold setMember
  rw [classObject_modifyClass ho]
  split <;> rfl

theorem parents_setMember (ho : o.index < h.classes.size) (v : Value) :
    (h.setMember o name v).parents = h.parents :=
  parents_modifyClass ho fun _ => rfl

theorem PlainWrites.inside (hws : h.PlainWrites ws) : ∀ w ∈ ws, w.object.index < h.classes.size := by
  induction ws generalizing h with
  | nil => exact fun w hw => absurd hw List.not_mem_nil
  | cons w ws ih =>
    obtain ⟨hw, -, hws⟩ := hws
    refine List.forall_mem_cons.2 ⟨hw, fun w' hw' => ?_⟩
    simpa using ih hws w' hw'

theorem size_writeAll (ws : List FieldWrite) :
    (h.writeAll ws).classes.size = h.classes.size := by
  unfold writeAll
  induction ws generalizing h with
  | nil => rfl
  | cons w ws ih => rw [List.foldl_cons, ih, size_setMember]

/-- Nothing is written but classes and instances. -/
theorem writeAll_classes (ws : List FieldWrite) :
    h.writeAll ws = { h with classes := (h.writeAll ws).classes } := by
  unfold writeAll
  induction ws generalizing h with
  | nil => rfl
  | cons w ws ih =>
    rw [List.foldl_cons, ih]
    rfl

section Writes

variable (hws : ∀ w ∈ ws, w.object.index < h.classes.size)

include hws

/-- What is not in the tables of members stays. -/
theorem classObject_writeAll (c : ClassRef) : (h.writeAll ws).classObject c =
    { h.classObject c with members := ((h.writeAll ws).classObject c).members } := by
  unfold writeAll
  induction ws generalizing h with
  | nil => rfl
  | cons w ws ih =>
    obtain ⟨hw, hws⟩ := List.forall_mem_cons.1 hws
    rw [List.foldl_cons, ih (by simpa using hws), classObject_setMember hw]

/-- A member that no write is for stays. -/
theorem ownMember?_writeAll (hother : ∀ w ∈ ws, w.object = c → w.name ≠ name) :
    (h.writeAll ws).ownMember? name c = h.ownMember? name c := by
  unfold writeAll
  induction ws generalizing h with
  | nil => rfl
  | cons w ws ih =>
    obtain ⟨hw, hws⟩ := List.forall_mem_cons.1 hws
    obtain ⟨hfirst, hother⟩ := List.forall_mem_cons.1 hother
    rw [List.foldl_cons, ih (by simpa using hws) hother, ownMember?_setMember hw]
    exact if_neg fun heq => hfirst heq.1.symm heq.2.symm

/-- The last write to a member stays. -/
theorem ownMember?_writeAll_last {before after : List FieldWrite} {w : FieldWrite}
    (hsplit : ws = before ++ w :: after)
    (hlast : ∀ w' ∈ after, w'.object = w.object → w'.name ≠ w.name) :
    (h.writeAll ws).ownMember? w.name w.object = some w.value := by
  subst hsplit
  have hinside : ∀ w' ∈ w :: after, w'.object.index < (h.writeAll before).classes.size := by
    intro w' hw'
    rw [size_writeAll]
    exact hws w' (List.mem_append_right _ hw')
  obtain ⟨hw, hafter⟩ := List.forall_mem_cons.1 hinside
  have hsplit : h.writeAll (before ++ w :: after) =
      ((h.writeAll before).setMember w.object w.name w.value).writeAll after := by
    unfold writeAll
    rw [List.foldl_append, List.foldl_cons]
  rw [hsplit, ownMember?_writeAll (by simpa using hafter) hlast, ownMember?_setMember hw,
    if_pos ⟨rfl, rfl⟩]

theorem parents_writeAll : (h.writeAll ws).parents = h.parents := by
  funext c
  unfold parents
  rw [classObject_writeAll hws]

theorem bases_writeAll (c : ClassRef) : (h.writeAll ws).bases c = h.bases c := by
  unfold bases
  rw [classObject_writeAll hws, parents_writeAll hws]

/-- Objects read what they read before, unless a write is for them or for something behind them. -/
theorem resolves_writeAll
    (hapart : ∀ w ∈ ws, w.name = name → w.object ≠ c ∧ ¬h.Behind c w.object) (d : ClassRef) :
    ((h.writeAll ws).Resolves c name d ↔ h.Resolves c name d) ∧
      (h.Resolves c name d → (h.writeAll ws).ownMember? name d = h.ownMember? name d) := by
  have hown : (h.writeAll ws).ownMember? name c = h.ownMember? name c :=
    ownMember?_writeAll hws fun w hw hobject hname => (hapart w hw hname).1 hobject
  have hbehind : ∀ a, h.Behind c a → (h.writeAll ws).ownMember? name a = h.ownMember? name a :=
    fun a ha => ownMember?_writeAll hws fun w hw hobject hname =>
      (hapart w hw hname).2 (hobject ▸ ha)
  have hparents := parents_writeAll hws
  have hbases := bases_writeAll hws c
  refine ⟨⟨fun hd => ?_, fun hd => hd.congr hbases hparents hown hbehind⟩, fun hd => ?_⟩
  · refine hd.congr hbases.symm hparents.symm hown.symm fun a ha => ?_
    unfold Behind at ha
    rw [hbases, hparents] at ha
    exact (hbehind a ha).symm
  · rcases hd.eq_or_behind with rfl | hbelow
    · exact hown
    · exact hbehind d hbelow

end Writes

end Heap

/-- What some writes that meet no property leave; see the head of the module. -/
structure Isolated (call : Invoke) (ws : List FieldWrite) (e e' : Engine) : Prop where
  /-- Nothing changes but the tables of members. -/
  rest : e' = { e with heap := { e.heap with classes := e'.heap.classes } }
  objects : ∀ c, e'.heap.classObject c =
    { e.heap.classObject c with members := (e'.heap.classObject c).members }
  /-- The last write to a member is what is read. -/
  written : ∀ before w after, ws = before ++ w :: after →
    (∀ w' ∈ after, w'.object = w.object → w'.name ≠ w.name) →
      e'.heap.ownMember? w.name w.object = some w.value ∧
      ((∀ r, w.value ≠ .property r) →
        Script.getField call w.object w.name e' = .ok w.value e')
  /-- No other member of any object changes. -/
  others : ∀ c name, (∀ w ∈ ws, w.object = c → w.name ≠ name) →
    e'.heap.ownMember? name c = e.heap.ownMember? name c
  /-- An object without a written one behind it has each member where it had it. -/
  apart : ∀ c name, (∀ w ∈ ws, w.name = name → w.object ≠ c ∧ ¬e.heap.Behind c w.object) →
    ∀ d, (e'.heap.Resolves c name d ↔ e.heap.Resolves c name d) ∧
      (e.heap.Resolves c name d → e'.heap.ownMember? name d = e.heap.ownMember? name d)

theorem writeAll_eq (call : Invoke) {ws : List FieldWrite} (he : e.heap.Ordered)
    (hws : e.heap.PlainWrites ws) :
    Script.writeAll call ws e = .ok () { e with heap := e.heap.writeAll ws } := by
  induction ws generalizing e with
  | nil => rfl
  | cons w ws ih =>
    obtain ⟨hinside, hplain, hws⟩ := hws
    have hordered : (e.heap.setMember w.object w.name w.value).Ordered := by
      rw [Heap.Ordered, Heap.parents_setMember hinside]
      exact he
    have hrun : Script.writeAll call (w :: ws) =
        Script.setField call w.object w.name w.value >>= fun _ => Script.writeAll call ws :=
      List.forM_cons
    rw [hrun, Script.bind_apply, (coherent call he w.object w.name).plain hplain]
    exact ih (e := { e with heap := _ }) hordered hws

theorem isolated (call : Invoke) {ws : List FieldWrite}
    (hws : ∀ w ∈ ws, w.object.index < e.heap.classes.size) :
    Isolated call ws e { e with heap := e.heap.writeAll ws } where
  rest := congrArg (fun h => { e with heap := h }) (Heap.writeAll_classes ws)
  objects := Heap.classObject_writeAll hws
  written before w after hsplit hlast := by
    have hown := Heap.ownMember?_writeAll_last hws hsplit hlast
    refine ⟨hown, fun hvalue => ?_⟩
    unfold Script.getField
    rw [Script.getHeap_bind_apply, hown]
    rcases hv : w.value <;> first | rfl | exact absurd hv (hvalue _)
  others _ _ := Heap.ownMember?_writeAll hws
  apart _ _ := Heap.resolves_writeAll hws

/-- Access to the members of objects is coherent, and writes are isolated; see the head of the
module. -/
theorem member_access_is_coherent_and_isolated (call : Invoke) (he : e.heap.Ordered) :
    (∀ o name, Coherent call e o name) ∧
    ∀ ws, e.heap.PlainWrites ws →
      ∃ e', Script.writeAll call ws e = .ok () e' ∧ Isolated call ws e e' :=
  ⟨coherent call he, fun _ hws => ⟨_, writeAll_eq call he hws, isolated call hws.inside⟩⟩

/-- Two classes that both have a member `x`, a class with both of them as parents, and two instances
of it. The second parent also has a property `self`, which gives its receiver. -/
def twoInstances : Engine where
  limits := {}
  heap :=
    { classes := #[
        { name := "First", members := ({} : Std.HashMap String Value).insert "x" (.str "first") },
        { name := "Second", members := (({} : Std.HashMap String Value).insert "x"
          (.str "second")).insert "self" (.property ⟨0⟩) },
        { name := "Both", parents := [⟨0⟩, ⟨1⟩], instantiable := true },
        { name := "Both", instantiable := true, defining := some ⟨2⟩ },
        { name := "Both", instantiable := true, defining := some ⟨2⟩ }]
      properties := #[{ getter := some { body := .native (.host .receiver) }, setter := none }] }
  globalScope := ⟨0⟩
  numberClass := ⟨0⟩
  stringClass := ⟨0⟩
  arrayClass := ⟨0⟩
  dictClass := ⟨0⟩

theorem ordered_twoInstances : twoInstances.heap.Ordered := by
  rintro ⟨c⟩ p hp
  rcases c with _ | _ | _ | _ | _ | c
  · cases hp
  · cases hp
  · change p ∈ [⟨0⟩, ⟨1⟩] at hp
    simp only [List.mem_cons, List.not_mem_nil, or_false] at hp
    rcases hp with rfl | rfl <;> decide
  · cases hp
  · cases hp
  · exact absurd hp List.not_mem_nil

theorem ownMember?_x_twoInstances (c : ClassRef) : twoInstances.heap.ownMember? "x" c =
    if c = ⟨0⟩ then some (.str "first") else if c = ⟨1⟩ then some (.str "second") else none := by
  have hmembers : (default : ClassObject).members = ∅ := rfl
  rcases c with ⟨_ | _ | _ | _ | _ | c⟩ <;>
    simp [Heap.ownMember?, Heap.classObject, twoInstances, Std.HashMap.getElem_insert, hmembers]

theorem ownMember?_self_twoInstances (c : ClassRef) : twoInstances.heap.ownMember? "self" c =
    if c = ⟨1⟩ then some (.property ⟨0⟩) else none := by
  have hmembers : (default : ClassObject).members = ∅ := rfl
  rcases c with ⟨_ | _ | _ | _ | _ | c⟩ <;>
    simp [Heap.ownMember?, Heap.classObject, twoInstances, hmembers]

/-- An instance gets `x` from the first parent of its class. -/
theorem resolves_x_twoInstances {o : ClassRef} (ho : twoInstances.heap.bases o = [⟨2⟩])
    (hown : twoInstances.heap.ownMember? "x" o = none) : twoInstances.heap.Resolves o "x" ⟨0⟩ := by
  refine .inherited hown ⟨[], ⟨2⟩, [], ho, by simp, ?_⟩
  exact @Finds.behind _ _ ⟨2⟩ ⟨0⟩ ⟨0⟩ [] [⟨1⟩] (ownMember?_x_twoInstances ⟨2⟩) rfl (by simp)
    (.here (by simp [ownMember?_x_twoInstances]))

/-- It gets `self` from the second one, as nothing behind the first one has it. -/
theorem resolves_self_twoInstances : twoInstances.heap.Resolves ⟨4⟩ "self" ⟨1⟩ := by
  refine .inherited (ownMember?_self_twoInstances ⟨4⟩) ⟨[], ⟨2⟩, [], rfl, by simp, ?_⟩
  refine @Finds.behind _ _ ⟨2⟩ ⟨1⟩ ⟨1⟩ [⟨0⟩] [] (ownMember?_self_twoInstances ⟨2⟩) rfl ?_
    (.here (by simp [ownMember?_self_twoInstances]))
  intro q hq a ha
  obtain rfl := List.mem_singleton.1 hq
  -- The first parent has no parents itself.
  obtain rfl | ⟨p, hp, -⟩ := reaches_iff.1 ha
  · exact ownMember?_self_twoInstances ⟨0⟩
  · cases hp

/-- The first instance gets a member `x` of its own. The second one still reads the `x` of the first
parent, and its property `self` is bound to it. -/
theorem member_access_is_coherent_and_isolated_twoInstances : ∃ e',
    Script.writeAll (callWithin 1) [⟨⟨3⟩, "x", .str "own"⟩] twoInstances = .ok () e' ∧
    Script.getField (callWithin 1) ⟨3⟩ "x" e' = .ok (.str "own") e' ∧
    e'.heap.Resolves ⟨4⟩ "x" ⟨0⟩ ∧ e'.heap.ownMember? "x" ⟨0⟩ = some (.str "first") ∧
    Script.getField (callWithin 1) ⟨4⟩ "self" twoInstances =
      .ok (.classObj ⟨4⟩) twoInstances := by
  obtain ⟨hcoherent, hisolated⟩ :=
    member_access_is_coherent_and_isolated (callWithin 1) ordered_twoInstances
  have hplain : twoInstances.heap.PlainWrites [⟨⟨3⟩, "x", .str "own"⟩] := by
    refine ⟨by decide, fun d r hd hr => ?_, trivial⟩
    obtain rfl := (resolves_x_twoInstances rfl (ownMember?_x_twoInstances ⟨3⟩)).unique hd
    rw [ownMember?_x_twoInstances] at hr
    cases hr
  obtain ⟨e', hrun, h⟩ := hisolated _ hplain
  -- The other instance inherits from the three classes only.
  have hapart : ∀ w ∈ [FieldWrite.mk ⟨3⟩ "x" (.str "own")], w.name = "x" →
      w.object ≠ ⟨4⟩ ∧ ¬twoInstances.heap.Behind ⟨4⟩ w.object := by
    intro w hw _
    obtain rfl := List.mem_singleton.1 hw
    refine ⟨by decide, ?_⟩
    rintro ⟨p, hp, ha⟩
    obtain rfl : p = ⟨2⟩ := List.mem_singleton.1 hp
    exact absurd (Older.le_of_reaches ordered_twoInstances ha) (by decide)
  have hread := h.apart ⟨4⟩ "x" hapart ⟨0⟩
  have hx := resolves_x_twoInstances (o := ⟨4⟩) rfl (ownMember?_x_twoInstances ⟨4⟩)
  refine ⟨e', hrun, (h.written [] _ [] rfl (by simp)).2 (fun r => Value.noConfusion), hread.1.2 hx,
    (hread.2 hx).trans (ownMember?_x_twoInstances ⟨0⟩), ?_⟩
  exact (hcoherent ⟨4⟩ "self").found ⟨1⟩ (.property ⟨0⟩) resolves_self_twoInstances
    (ownMember?_self_twoInstances ⟨1⟩)

end ScriptEngine
