import ScriptEngine.Embedding
import ScriptEngine.Proofs.Captured

/-!
# Reading and writing variables

A name means the first place that a search outwards comes to: a variable of a named scope, a local
of an activation, or a cell that an activation is linked to (`Heap.Binds`). A name that nothing binds
means a variable of the outermost scope (`Heap.Unbound`). Both reads and writes go there.

**Trees.** The search ends, and what it finds is there, in a tree of scopes (`Heap.Tree`): each scope
lies in the one around it, and names stand for registers inside their windows, different names for
different ones. A single chain of scopes is such a tree, and so are all scopes of an engine.

**Writes.** A write of a plain value changes what is stored at that place and nothing else
(`Assigned`), so every other name means what it meant before, wherever it is read.

Main statement: `variables_are_read_and_written_at_one_place`.
-/

namespace ScriptEngine

namespace Heap

variable {h : Heap} {S : ScopeRef → Prop} {s u c g root : ScopeRef} {name : String} {p q : Place}
  {v : Value}

/-! ## Trees of scopes -/

/-- Scopes with those around them; see the head of the module. -/
structure Tree (h : Heap) (S : ScopeRef → Prop) : Prop where
  present : ∀ s, S s → s.index < h.scopes.size
  around : ∀ s p, S s → (h.scope s).parent? = some p → S p ∧ p.index < s.index
  inside : ∀ s name c, S s → (h.scope s).register? name = some c →
    c.index < (h.window c.window).size
  apart : ∀ s s' name name' c, S s → S s' → (h.scope s).register? name = some c →
    (h.scope s').register? name' = some c → name = name'

/-- The scope around another one. -/
def Parent (h : Heap) (s p : ScopeRef) : Prop :=
  (h.scope s).parent? = some p

theorem Tree.chain (hS : h.Tree S) (hs : S s) (hparent : (h.scope s).parent? = some u) :
    h.chain s = s :: h.chain u :=
  chain_of_parent hparent (hS.around s u hs hparent).2

/-- The outermost scope is no activation. -/
theorem isActivation_of_root (hparent : (h.scope s).parent? = none) : h.isActivation s = false := by
  unfold isActivation
  rcases hscope : h.scope s with ⟨parent, vars⟩ | ⟨parent, window, locals, upvalues⟩
  · rfl
  · rw [hscope] at hparent
    cases hparent

/-! ## Where a name is bound -/

/-- The place that a name means; see the head of the module. -/
inductive Binds (h : Heap) (name : String) : ScopeRef → Place → Prop where
  | own {s : ScopeRef} {p : Place} (hp : h.ownPlace? name s = some p) : Binds h name s p
  | around {s u : ScopeRef} {p : Place} (hnone : h.ownPlace? name s = none)
      (hparent : (h.scope s).parent? = some u) (hu : Binds h name u p) : Binds h name s p

/-- No scope of a chain binds a name; `root` is the outermost one. -/
inductive Unbound (h : Heap) (name : String) : ScopeRef → ScopeRef → Prop where
  | root {s : ScopeRef} (hnone : h.ownPlace? name s = none)
      (hparent : (h.scope s).parent? = none) : Unbound h name s s
  | around {s u root : ScopeRef} (hnone : h.ownPlace? name s = none)
      (hparent : (h.scope s).parent? = some u) (hu : Unbound h name u root) : Unbound h name s root

/-- The place that a write of a name goes to. -/
def Target (h : Heap) (name : String) (s : ScopeRef) (p : Place) : Prop :=
  h.Binds name s p ∨ ∃ root, h.Unbound name s root ∧ p = .variable root

theorem Tree.exists_target (hS : h.Tree S) (hs : S s) (name : String) :
    ∃ p, h.Target name s p := by
  induction hn : s.index using Nat.strong_induction_on generalizing s with
  | _ n ih =>
    rcases hown : h.ownPlace? name s with _ | p
    · rcases hparent : (h.scope s).parent? with _ | u
      · exact ⟨_, .inr ⟨s, .root hown hparent, rfl⟩⟩
      · obtain ⟨hu, hlt⟩ := hS.around s u hs hparent
        obtain ⟨p, hp | ⟨root, hroot, rfl⟩⟩ := ih u.index (hn ▸ hlt) hu rfl
        · exact ⟨p, .inl (.around hown hparent hp)⟩
        · exact ⟨_, .inr ⟨root, .around hown hparent hroot, rfl⟩⟩
    · exact ⟨p, .inl (.own hown)⟩

theorem Binds.place? (hS : h.Tree S) (hs : S s) (hp : h.Binds name s p) :
    h.place? s name = some p := by
  induction hp with
  | own hown => rw [Heap.place?, Heap.chain, List.findSome?_cons, hown]
  | around hnone hparent _ ih =>
    rw [Heap.place?, hS.chain hs hparent, List.findSome?_cons, hnone]
    exact ih (hS.around _ _ hs hparent).1

theorem Unbound.place? (hS : h.Tree S) (hs : S s) (hroot : h.Unbound name s root) :
    h.place? s name = none := by
  induction hroot with
  | root hnone hparent => rw [Heap.place?, chain_of_root hparent, List.findSome?_cons, hnone]; rfl
  | around hnone hparent _ ih =>
    rw [Heap.place?, hS.chain hs hparent, List.findSome?_cons, hnone]
    exact ih (hS.around _ _ hs hparent).1

theorem Unbound.outermost (hS : h.Tree S) (hs : S s) (hroot : h.Unbound name s root) :
    h.outermost s = root := by
  have hlast : (h.chain s).getLast? = some root := by
    induction hroot with
    | root hnone hparent => rw [chain_of_root hparent]; rfl
    | around hnone hparent _ ih =>
      have hu := ih (hS.around _ _ hs hparent).1
      rw [hS.chain hs hparent, List.getLast?_cons, hu]
      rfl
  rw [Heap.outermost, hlast, Option.getD_some]

theorem Unbound.mem (hS : h.Tree S) (hs : S s) (hroot : h.Unbound name s root) :
    S root ∧ (h.scope root).parent? = none ∧ h.ownPlace? name root = none := by
  induction hroot with
  | root hnone hparent => exact ⟨hs, hparent, hnone⟩
  | around _ hparent _ ih => exact ih (hS.around _ _ hs hparent).1

/-- A place is bound by a scope of the tree. -/
theorem Binds.owner (hS : h.Tree S) (hs : S s) (hp : h.Binds name s p) :
    ∃ o, S o ∧ h.ownPlace? name o = some p := by
  induction hp with
  | @own s p hown => exact ⟨s, hs, hown⟩
  | around _ hparent _ ih => exact ih (hS.around _ _ hs hparent).1

/-! ## What is stored -/

/-- What is stored for a name at a place, if there is anything. A register does not know names. -/
def stored? (h : Heap) (name : String) : Place → Option Value
  | .variable s =>
    match h.scope s with
    | .named _ vars => vars[name]?
    | .activation _ _ _ _ => none
  | .register cell => h.cell? cell

theorem atPlace_eq (h : Heap) (name : String) (p : Place) :
    h.atPlace name p = (h.stored? name p).getD .void := by
  rcases p with s | c
  · rcases hs : h.scope s with ⟨parent, vars⟩ | ⟨parent, window, locals, upvalues⟩ <;>
      simp only [atPlace, stored?, hs, Std.HashMap.getD_eq_getD_getElem?, Option.getD_none]
  · rfl

/-- A scope itself stores a name in a register, or else as a variable. -/
theorem ownPlace?_eq (h : Heap) (name : String) (s : ScopeRef) :
    h.ownPlace? name s = (((h.scope s).register? name).map Place.register).or
      ((h.stored? name (.variable s)).map fun _ => .variable s) := by
  rcases hs : h.scope s with ⟨parent, vars⟩ | ⟨parent, window, locals, upvalues⟩
  · simp only [ownPlace?, hs, Scope.register?, Heap.stored?, Option.map_none, Option.none_or,
      Std.HashMap.contains_eq_isSome_getElem?]
    rcases vars[name]? with _ | v <;> rfl
  · simp only [ownPlace?, hs, Scope.register?, Heap.stored?, Option.map_none, Option.or_none]
    rcases locals[name]? with _ | index <;> rfl

theorem ownPlace?_eq_variable (hp : h.ownPlace? name s = some (.variable u)) :
    u = s ∧ ∃ v, h.stored? name (.variable s) = some v := by
  rw [ownPlace?_eq] at hp
  rcases hr : (h.scope s).register? name with _ | c <;> rw [hr] at hp
  · rcases hv : h.stored? name (.variable s) with _ | v <;> rw [hv] at hp <;> cases hp
    exact ⟨rfl, v, rfl⟩
  · cases hp

theorem ownPlace?_eq_none : h.ownPlace? name s = none ↔
    (h.scope s).register? name = none ∧ h.stored? name (.variable s) = none := by
  rw [ownPlace?_eq, Option.or_eq_none_iff, Option.map_eq_none_iff, Option.map_eq_none_iff]

/-- Variables are in named scopes. -/
theorem named_of_stored? (hv : h.stored? name (.variable s) = some v) :
    ∃ parent vars, h.scope s = .named parent vars := by
  rcases hs : h.scope s with ⟨parent, vars⟩ | ⟨parent, window, locals, upvalues⟩
  · exact ⟨parent, vars, rfl⟩
  · simp only [stored?, hs, reduceCtorEq] at hv

theorem named_of_root (hparent : (h.scope s).parent? = none) :
    ∃ parent vars, h.scope s = .named parent vars := by
  rcases hs : h.scope s with ⟨parent, vars⟩ | ⟨parent, window, locals, upvalues⟩
  · exact ⟨parent, vars, rfl⟩
  · rw [hs] at hparent
    cases hparent

/-- Something is stored where a name is bound. -/
theorem Binds.stored? (hS : h.Tree S) (hs : S s) (hp : h.Binds name s p) :
    ∃ v, h.stored? name p = some v := by
  obtain ⟨o, ho, hown⟩ := hp.owner hS hs
  rcases p with u | c
  · obtain ⟨rfl, hv⟩ := ownPlace?_eq_variable hown
    exact hv
  · exact cell?_isSome (hS.inside o name c ho (ownPlace?_eq_register.1 hown))

/-- The registers of a tree are there, so that a lookup finds what is read. -/
theorem Tree.lookup? (hS : h.Tree S) (hs : S s) (name : String) :
    h.lookup? s name = h.bound? s name := by
  refine lookup?_eq fun c hc => ?_
  obtain ⟨p, hp | ⟨root, hroot, -⟩⟩ := hS.exists_target hs name
  · obtain rfl := Option.some.inj ((hp.place? hS hs).symm.trans hc)
    exact hp.stored? hS hs
  · cases (hroot.place? hS hs).symm.trans hc

/-- A lookup gives what is stored where the name is bound, and nothing if it is not. -/
theorem Target.lookup? (hS : h.Tree S) (hs : S s) (hp : h.Target name s p) :
    h.lookup? s name = h.stored? name p := by
  rw [hS.lookup? hs, bound?]
  rcases hp with hp | ⟨root, hroot, rfl⟩
  · obtain ⟨v, hv⟩ := hp.stored? hS hs
    rw [hp.place? hS hs, Option.map_some, atPlace_eq, hv, Option.getD_some]
  · obtain ⟨-, -, hnone⟩ := hroot.mem hS hs
    rw [hroot.place? hS hs, Option.map_none, (ownPlace?_eq_none.1 hnone).2]

/-! ## Writing a place -/

/-- The heap with a value stored for a name at a place. -/
def store (h : Heap) (name : String) (v : Value) : Place → Heap
  | .variable s => h.setVariable s name v
  | .register cell => h.setCell cell v

/-- A place that can be written: a variable of a named scope that is there, or a register inside its
window. -/
def Writable (h : Heap) : Place → Prop
  | .variable s => s.index < h.scopes.size ∧ ∃ parent vars, h.scope s = .named parent vars
  | .register cell => cell.index < (h.window cell.window).size

theorem Target.writable (hS : h.Tree S) (hs : S s) (hp : h.Target name s p) : h.Writable p := by
  rcases hp with hp | ⟨root, hroot, rfl⟩
  · obtain ⟨o, ho, hown⟩ := hp.owner hS hs
    rcases p with u | c
    · obtain ⟨rfl, v, hv⟩ := ownPlace?_eq_variable hown
      exact ⟨hS.present u ho, named_of_stored? hv⟩
    · exact hS.inside o name c ho (ownPlace?_eq_register.1 hown)
  · obtain ⟨hroot, hparent, -⟩ := hroot.mem hS hs
    exact ⟨hS.present root hroot, named_of_root hparent⟩

theorem scope_setVariable (hs : h.Writable (.variable s)) (u : ScopeRef) :
    ∃ parent vars, h.scope s = .named parent vars ∧ (h.setVariable s name v).scope u =
      if u = s then .named parent (vars.insert name v) else h.scope u := by
  obtain ⟨hlt, parent, vars, hscope⟩ := hs
  refine ⟨parent, vars, hscope, ?_⟩
  have hget : h.scopes[s.index]? = some (.named parent vars) := by
    rw [Array.getElem?_eq_getElem hlt, ← hscope, Heap.scope, Array.getD_eq_getD_getElem?,
      Array.getElem?_eq_getElem hlt, Option.getD_some]
  simp only [setVariable, modifyScope, scope, Array.getD_eq_getD_getElem?, Array.getElem?_modify]
  by_cases hu : u = s
  · rw [if_pos hu, hu, if_pos rfl, hget]
    rfl
  · have hne : s.index ≠ u.index := fun heq => hu (congrArg ScopeRef.mk heq.symm)
    rw [if_neg hu, if_neg hne]

/-- The place holds the value afterwards. -/
theorem stored?_store_self (hp : h.Writable p) {m : String} (hm : m = name ∨ ∃ c, p = .register c) :
    (h.store name v p).stored? m p = some v := by
  rcases p with s | c
  · obtain ⟨parent, vars, -, hs'⟩ := @scope_setVariable h s name v hp s
    obtain rfl | ⟨c, hc⟩ := hm
    · simp only [store, stored?, hs', if_true, Std.HashMap.getElem?_insert_self]
    · cases hc
  · exact cell?_setCell_self hp v

/-- What is stored elsewhere stays. -/
theorem stored?_store (hp : h.Writable p) {m : String} (hq : q = p → m ≠ name ∧ ∃ o, p = .variable o) :
    (h.store name v p).stored? m q = h.stored? m q := by
  rcases p with s | c
  · rcases q with u | c'
    · obtain ⟨parent, vars, hs, hu⟩ := @scope_setVariable h s name v hp u
      simp only [store, stored?, hu]
      by_cases heq : u = s
      · subst heq
        have hne : ¬(name == m) = true := fun heq => (hq rfl).1 (beq_iff_eq.1 heq).symm
        rw [if_pos rfl, hs]
        dsimp only
        rw [Std.HashMap.getElem?_insert, if_neg hne]
      · rw [if_neg heq]
    · rfl
  · rcases q with u | c'
    · rfl
    · show (h.setCell c v).cell? c' = h.cell? c'
      rw [cell?_setCell, if_neg]
      rintro ⟨rfl, -⟩
      obtain ⟨-, o, ho⟩ := hq rfl
      cases ho

/-- Scopes stay where they are and keep their registers. -/
theorem frame_store (hp : h.Writable p) (u : ScopeRef) :
    ((h.store name v p).scope u).parent? = (h.scope u).parent? ∧
      ((h.store name v p).scope u).register? = (h.scope u).register? := by
  rcases p with s | c
  · obtain ⟨parent, vars, hs, hu⟩ := @scope_setVariable h s name v hp u
    simp only [store, hu]
    by_cases heq : u = s
    · subst heq
      rw [if_pos rfl, hs]
      exact ⟨rfl, rfl⟩
    · rw [if_neg heq]
      exact ⟨rfl, rfl⟩
  · exact ⟨rfl, rfl⟩

theorem Tree.store (hS : h.Tree S) (hp : h.Writable p) : (h.store name v p).Tree S := by
  have hsize : (h.store name v p).scopes.size = h.scopes.size := by
    rcases p with s | c
    · simp [Heap.store, setVariable, modifyScope]
    · rfl
  have hwindow : ∀ w, ((h.store name v p).window w).size = (h.window w).size := by
    rcases p with s | c
    · exact fun _ => rfl
    · exact size_window_setCell c v
  have hframe := @frame_store h name p v hp
  refine ⟨fun s hs => hsize ▸ hS.present s hs, fun s u hs hu => ?_, fun s m c hs hc => ?_,
    fun s s' m m' c hs hs' hc hc' => ?_⟩
  · exact hS.around s u hs ((hframe s).1 ▸ hu)
  · rw [hwindow]
    exact hS.inside s m c hs (by rwa [← (hframe s).2])
  · exact hS.apart s s' m m' c hs hs' (by rwa [← (hframe s).2]) (by rwa [← (hframe s').2])

/-- A write gives no scope a name, apart from the variable that is written. -/
theorem ownPlace?_store (hp : h.Writable p) {m : String} (hu : p = .variable u → m ≠ name) :
    (h.store name v p).ownPlace? m u = h.ownPlace? m u := by
  rw [ownPlace?_eq, ownPlace?_eq, (frame_store hp u).2,
    stored?_store hp fun heq => ⟨hu heq.symm, u, heq.symm⟩]

theorem Binds.store (hp : h.Writable p) {m : String} (hm : m ≠ name) (hq : h.Binds m u q) :
    (h.store name v p).Binds m u q := by
  induction hq with
  | own hown => exact .own ((ownPlace?_store hp fun _ => hm).trans hown)
  | around hnone hparent _ ih =>
    exact .around ((ownPlace?_store hp fun _ => hm).trans hnone)
      ((frame_store hp _).1.trans hparent) ih

theorem Unbound.store (hp : h.Writable p) {m : String} (hm : m ≠ name)
    (hroot : h.Unbound m u root) : (h.store name v p).Unbound m u root := by
  induction hroot with
  | root hnone hparent =>
    exact .root ((ownPlace?_store hp fun _ => hm).trans hnone) ((frame_store hp _).1.trans hparent)
  | around hnone hparent _ ih =>
    exact .around ((ownPlace?_store hp fun _ => hm).trans hnone)
      ((frame_store hp _).1.trans hparent) ih

/-- Other names mean what they meant. -/
theorem Target.store (hp : h.Writable p) {m : String} (hm : m ≠ name) (hq : h.Target m u q) :
    (h.store name v p).Target m u q := by
  rcases hq with hq | ⟨root, hroot, rfl⟩
  · exact .inl (hq.store hp hm)
  · exact .inr ⟨root, hroot.store hp hm, rfl⟩

/-- A scope that binds the name that is written goes on to bind it at the same place. -/
theorem ownPlace?_store_self (hp : h.Writable p) (hown : h.ownPlace? name u = some q) :
    (h.store name v p).ownPlace? name u = some q := by
  by_cases hu : p = .variable u
  · subst hu
    rw [ownPlace?_eq] at hown ⊢
    rw [(frame_store hp u).2, stored?_store_self hp (.inl rfl)]
    rcases hr : (h.scope u).register? name with _ | c <;> rw [hr] at hown
    · rcases hv : h.stored? name (.variable u) with _ | w <;> rw [hv] at hown <;> cases hown
      rfl
    · exact hown
  · rwa [ownPlace?_store hp fun heq => absurd heq hu]

/-- A search goes to scopes that were there before. -/
theorem Binds.le (hS : h.Tree S) (hs : S s) (hp : h.Binds name s p) :
    ∀ o, p = .variable o → o.index ≤ s.index := by
  induction hp with
  | own hown =>
    rintro o rfl
    rw [(ownPlace?_eq_variable hown).1]
  | around _ hparent _ ih =>
    obtain ⟨hu, hlt⟩ := hS.around _ _ hs hparent
    exact fun o ho => (ih hu o ho).trans hlt.le

theorem Unbound.le (hS : h.Tree S) (hs : S s) (hroot : h.Unbound name s root) :
    root.index ≤ s.index := by
  induction hroot with
  | root => exact le_refl _
  | around _ hparent _ ih =>
    obtain ⟨hu, hlt⟩ := hS.around _ _ hs hparent
    exact (ih hu).trans hlt.le

/-- The name that was written is bound at the place. -/
theorem Target.binds_store (hS : h.Tree S) (hs : S s) (hp : h.Target name s p) :
    (h.store name v p).Binds name s p := by
  have hw := hp.writable hS hs
  have hframe := fun u => (@frame_store h name p v hw u).1
  rcases hp with hp | ⟨root, hroot, rfl⟩
  · induction hp with
    | own hown => exact .own (ownPlace?_store_self hw hown)
    | @around s u p hnone hparent hu ih =>
      obtain ⟨hSu, hlt⟩ := hS.around _ _ hs hparent
      refine .around ?_ ((hframe _).trans hparent) (ih hSu hw hframe)
      rw [ownPlace?_store hw fun heq => absurd (hu.le hS hSu s heq) hlt.not_ge]
      exact hnone
  · induction hroot with
    | @root s hnone hparent =>
      refine .own ?_
      rw [ownPlace?_eq, (frame_store hw s).2, (ownPlace?_eq_none.1 hnone).1,
        stored?_store_self hw (.inl rfl)]
      rfl
    | @around s u root hnone hparent hu ih =>
      obtain ⟨hSu, hlt⟩ := hS.around _ _ hs hparent
      refine .around ?_ ((hframe _).trans hparent) (ih hSu hw hframe)
      rw [ownPlace?_store hw fun heq => ?_]
      · exact hnone
      · cases heq
        exact absurd (hu.le hS hSu) hlt.not_ge

end Heap

/-! ## Reading and writing -/

namespace Script

variable {call : Invoke} {e : Engine} {S : ScopeRef → Prop} {s : ScopeRef} {name : String}
  {p : Place} {r : PropertyRef}

/-- A name that means no property reads as what is stored, and as undefined if it is not bound. -/
theorem getVariable_plain (hS : e.heap.Tree S) (hs : S s)
    (hp : ∀ r, e.heap.lookup? s name ≠ some (.property r)) :
    getVariable call s name e = .ok ((e.heap.lookup? s name).getD .undefined) e := by
  rw [getVariable_eq, getHeap_bind_apply, ← hS.lookup? hs]
  rcases hv : e.heap.lookup? s name with _ | v
  · rfl
  · cases v with
    | property r => exact absurd hv (hp r)
    | _ => rfl

theorem getVariable_property (hS : e.heap.Tree S) (hs : S s)
    (hp : e.heap.lookup? s name = some (.property r)) :
    getVariable call s name e = (e.heap.property r).read call e := by
  rw [getVariable_eq, getHeap_bind_apply, ← hS.lookup? hs, hp]
  rfl

/-- A write of a name that means no property stores the value. -/
theorem setVariable_plain (hS : e.heap.Tree S) (hs : S s) (hp : e.heap.Target name s p)
    (hplain : ∀ r, e.heap.stored? name p ≠ some (.property r)) (v : Value) :
    setVariable call s name v e = .ok () { e with heap := e.heap.store name v p } := by
  rw [setVariable_eq, getHeap_bind_apply]
  rcases hp with hp | ⟨root, hroot, rfl⟩
  · rw [hp.place? hS hs]
    obtain ⟨w, hw⟩ := hp.stored? hS hs
    rcases p with o | c
    · dsimp only [writePlace]
      rw [getHeap_bind_apply, Heap.atPlace_eq, hw, Option.getD_some]
      cases w with
      | property r => exact absurd hw (hplain r)
      | _ => rfl
    · dsimp only [writePlace, writeCell]
      rw [getHeap_bind_apply, show e.heap.cell? c = some w from hw]
      cases w with
      | property r => exact absurd hw (hplain r)
      | _ => rfl
  · rw [hroot.place? hS hs, hroot.outermost hS hs]
    dsimp only
    rw [Heap.isActivation_of_root (hroot.mem hS hs).2.1]
    rfl

theorem setVariable_property (hS : e.heap.Tree S) (hs : S s) (hp : e.heap.Target name s p)
    (hr : e.heap.stored? name p = some (.property r)) (v : Value) :
    setVariable call s name v e = (e.heap.property r).write call v e := by
  rw [setVariable_eq, getHeap_bind_apply]
  rcases hp with hp | ⟨root, hroot, rfl⟩
  · rw [hp.place? hS hs]
    rcases p with o | c
    · dsimp only [writePlace]
      rw [getHeap_bind_apply, Heap.atPlace_eq, hr]
      rfl
    · dsimp only [writePlace, writeCell]
      rw [getHeap_bind_apply, show e.heap.cell? c = some _ from hr]
      rfl
  · rw [(Heap.ownPlace?_eq_none.1 (hroot.mem hS hs).2.2).2] at hr
    cases hr

end Script

/-- What a write of a plain value to the place `p` of a name leaves, read again from scopes of a
tree. -/
structure Assigned (call : Invoke) (S : ScopeRef → Prop) (s : ScopeRef) (name : String) (p : Place)
    (v : Value) (e e' : Engine) : Prop where
  rest : e' = { e with
    heap := { e.heap with scopes := e'.heap.scopes, windows := e'.heap.windows } }
  /-- Scopes stay where they are and keep their registers. -/
  scopes : ∀ u, (e'.heap.scope u).parent? = (e.heap.scope u).parent? ∧
    (e'.heap.scope u).register? = (e.heap.scope u).register?
  written : ∀ m, (m = name ∨ ∃ c, p = .register c) → e'.heap.stored? m p = some v
  kept : ∀ q m, (q = p → m ≠ name ∧ ∃ o, p = .variable o) →
    e'.heap.stored? m q = e.heap.stored? m q
  read : Script.getVariable call s name e' = .ok v e' ∧ e'.heap.lookup? s name = some v
  others : ∀ u m, S u → m ≠ name → e'.heap.lookup? u m = e.heap.lookup? u m ∧
    ((∀ r, e.heap.lookup? u m ≠ some (.property r)) →
      ∃ w, Script.getVariable call u m e = .ok w e ∧ Script.getVariable call u m e' = .ok w e')

/-- A name that means a property is read by its getter and written by its setter. -/
structure Accessed (call : Invoke) (s : ScopeRef) (name : String) (p : Property) (e : Engine) :
    Prop where
  getter : ∀ f, p.getter = some f → Script.getVariable call s name e = call f #[] e
  noGetter : p.getter = none →
    Script.getVariable call s name e = .error (.runtime .noGetter) e
  setter : ∀ f, p.setter = some f →
    ∀ v, Script.setVariable call s name v e = discard (call f #[v]) e
  noSetter : p.setter = none →
    ∀ v, Script.setVariable call s name v e = .error (.runtime .noSetter) e

section Variables

variable {e : Engine} {S : ScopeRef → Prop} {s c g : ScopeRef} {name : String} {p q : Place}
  {v : Value}

theorem Heap.Target.unique {h : Heap} (hS : h.Tree S) (hs : S s) (hp : h.Target name s p)
    (hq : h.Target name s q) : q = p := by
  rcases hp with hp | ⟨root, hroot, rfl⟩ <;> rcases hq with hq | ⟨root', hroot', rfl⟩
  · exact Option.some.inj ((hq.place? hS hs).symm.trans (hp.place? hS hs))
  · cases (hroot'.place? hS hs).symm.trans (hp.place? hS hs)
  · cases (hroot.place? hS hs).symm.trans (hq.place? hS hs)
  · rw [← hroot.outermost hS hs, ← hroot'.outermost hS hs]

/-- Two names that mean the same register are one. -/
theorem Heap.Target.name_eq {h : Heap} (hS : h.Tree S) {u : ScopeRef} {m : String} {c : Cell}
    (hs : S s) (hu : S u) (hp : h.Target name s (.register c)) (hq : h.Target m u (.register c)) :
    m = name := by
  rcases hp with hp | ⟨_, _, hp⟩
  · rcases hq with hq | ⟨_, _, hq⟩
    · obtain ⟨o, ho, hown⟩ := hp.owner hS hs
      obtain ⟨o', ho', hown'⟩ := hq.owner hS hu
      exact hS.apart o' o m name c ho' ho (Heap.ownPlace?_eq_register.1 hown')
        (Heap.ownPlace?_eq_register.1 hown)
    · cases hq
  · cases hp

theorem assigned (call : Invoke) (hS : e.heap.Tree S) (hs : S s) (hp : e.heap.Target name s p)
    (hv : ∀ r, v ≠ .property r) :
    Assigned call S s name p v e { e with heap := e.heap.store name v p } := by
  have hw := hp.writable hS hs
  have hS' : (e.heap.store name v p).Tree S := hS.store hw
  have hlookup : (e.heap.store name v p).lookup? s name = some v := by
    rw [Heap.Target.lookup? hS' hs (.inl (hp.binds_store hS hs)),
      Heap.stored?_store_self hw (.inl rfl)]
  have hothers : ∀ u m, S u → m ≠ name →
      (e.heap.store name v p).lookup? u m = e.heap.lookup? u m := by
    intro u m hu hm
    obtain ⟨q, hq⟩ := hS.exists_target hu m
    rw [Heap.Target.lookup? hS' hu (hq.store hw hm), hq.lookup? hS hu, Heap.stored?_store hw]
    rintro rfl
    refine ⟨hm, ?_⟩
    rcases q with o | c
    · exact ⟨o, rfl⟩
    · exact absurd (Heap.Target.name_eq hS hs hu hp hq) hm
  refine ⟨?_, Heap.frame_store hw, fun m => Heap.stored?_store_self hw,
    fun q m => Heap.stored?_store hw, ⟨?_, hlookup⟩, fun u m hu hm => ⟨hothers u m hu hm, ?_⟩⟩
  · rcases p with o | c <;> rfl
  · have hread : Script.getVariable call s name { e with heap := e.heap.store name v p } = _ :=
      Script.getVariable_plain hS' hs fun r hr => hv r (Option.some.inj (hlookup.symm.trans hr))
    rwa [hlookup, Option.getD_some] at hread
  · intro hplain
    refine ⟨_, Script.getVariable_plain hS hu hplain, ?_⟩
    rw [← hothers u m hu hm] at hplain ⊢
    exact Script.getVariable_plain hS' hu hplain

theorem accessed (call : Invoke) (hS : e.heap.Tree S) (hs : S s) (hp : e.heap.Target name s p)
    {r : PropertyRef} (hr : e.heap.stored? name p = some (.property r)) :
    Accessed call s name (e.heap.property r) e := by
  have hread : Script.getVariable call s name e = (e.heap.property r).read call e :=
    Script.getVariable_property hS hs ((hp.lookup? hS hs).trans hr)
  have hwrite (v : Value) : Script.setVariable call s name v e =
      (e.heap.property r).write call v e := Script.setVariable_property hS hs hp hr v
  refine ⟨fun f hf => ?_, fun hf => ?_, fun f hf v => ?_, fun hf v => ?_⟩
  · rw [hread, Property.read, hf]
  · rw [hread, Property.read, hf]
    rfl
  · rw [hwrite, Property.write, hf]
  · rw [hwrite, Property.write, hf]
    rfl

theorem Heap.Tree.outer {h : Heap} (hS : h.Tree S) (hs : S s)
    (hg : Relation.TransGen h.Parent s g) : g.index < s.index := by
  induction hg using Relation.TransGen.head_induction_on with
  | single hparent => exact (hS.around _ _ hs hparent).2
  | head hparent _ ih =>
    obtain ⟨hu, hlt⟩ := hS.around _ _ hs hparent
    exact (ih hu).trans hlt

/-- What a scope binds is not looked for outside of it. -/
theorem Heap.Target.not_outer {h : Heap} (hS : h.Tree S) (hs : S s) (hp : h.Target name s p)
    (hc : Relation.ReflTransGen h.Parent s c) (hown : h.ownPlace? name c ≠ none)
    (hg : Relation.TransGen h.Parent c g) : p ≠ .variable g := by
  induction hc using Relation.ReflTransGen.head_induction_on with
  | refl =>
    rintro rfl
    rcases hp with hp | ⟨root, hroot, -⟩
    · cases hp with
      | own hp =>
        obtain ⟨rfl, -⟩ := Heap.ownPlace?_eq_variable hp
        exact absurd (hS.outer hs hg) (lt_irrefl _)
      | around hnone => exact hown hnone
    · cases hroot with
      | root hnone => exact hown hnone
      | around hnone => exact hown hnone
  | @head s u hparent hc ih =>
    have hu := (hS.around _ _ hs hparent).1
    rcases hp with hp | ⟨root, hroot, rfl⟩
    · cases hp with
      | own hp =>
        rintro rfl
        obtain ⟨rfl, -⟩ := Heap.ownPlace?_eq_variable hp
        exact absurd (hS.outer hs (.trans_right (.head hparent hc) hg)) (lt_irrefl _)
      | around hnone hparent' hp =>
        obtain rfl := Option.some.inj (hparent.symm.trans hparent')
        exact ih hu (.inl hp)
    · cases hroot with
      | root hnone hroot => cases hparent.symm.trans hroot
      | around hnone hparent' hroot =>
        obtain rfl := Option.some.inj (hparent.symm.trans hparent')
        exact ih hu (.inr ⟨root, hroot, rfl⟩)

/-! ## Scripts that run in a scope -/

/-- A script that is run in a scope runs in an activation inside that scope. -/
theorem evalIn_eq {source : String} {chunk : Chunk} (h : compile source = .ok chunk) (fuel : Nat)
    (c : ScopeRef) (e : Engine) : ∃ args,
      Engine.evalIn (fuel + 1) source c e = execute (callWithin fuel) fuel chunk c .void args e := by
  refine ⟨Function.parameters { body := .script chunk, scope := some c } chunk.paramCount #[], ?_⟩
  rw [Engine.evalIn, Script.evalIn, h]
  rfl

theorem Scope.parent?_eq (scope : Scope) : scope.parent? = scope.shape.1 := by
  cases scope <;> rfl

theorem parent_newFrame {chunk : Chunk} {c : ScopeRef} {receiver : Value} {args : Array Value}
    {e e₁ : Engine} {f : Frame} (h : newFrame chunk c receiver args e = .ok f e₁) {e₂ : Engine}
    (hx : e₁.heap.Extends e₂.heap) : e₂.heap.Parent f.activation c := by
  let h₁ := (e.heap.newWindow (chunk.initialWindow receiver args)).2
  let h₂ := (h₁.newScope (.activation c ⟨e.heap.windows.size⟩ ∅ ∅)).2
  let cell : Cell := ⟨⟨e.heap.windows.size⟩, chunk.base⟩
  have hnew : newFrame chunk c receiver args e =
      .ok ⟨chunk, ⟨e.heap.windows.size⟩, ⟨h₁.scopes.size⟩, chunk.base⟩
        { e with heap := h₂.setCell cell (.scope ⟨h₁.scopes.size⟩) } := rfl
  obtain ⟨rfl, rfl⟩ := EStateM.Result.ok.inj (hnew.symm.trans h)
  have hlt : h₁.scopes.size < h₂.scopes.size := by
    show _ < (h₁.scopes.push _).size
    rw [Array.size_push]
    exact Nat.lt_succ_self _
  have hscope : h₂.scope ⟨h₁.scopes.size⟩ = .activation c ⟨e.heap.windows.size⟩ ∅ ∅ :=
    (Heap.scope_newScope _ _).trans (if_pos rfl)
  have hshape : (e₂.heap.scope ⟨h₁.scopes.size⟩).shape = (h₂.scope ⟨h₁.scopes.size⟩).shape :=
    hx.shapes ⟨h₁.scopes.size⟩ hlt
  rw [hscope] at hshape
  show (e₂.heap.scope ⟨h₁.scopes.size⟩).parent? = some c
  rw [Scope.parent?_eq, hshape]
  rfl

/-- A name means one place, where both reads and writes go. A write of a plain value changes that
place only, and what other names mean stays; a property there is read by its getter and written by
its setter. A scope that binds a name keeps writes away from all scopes around it, so a script that
is run in such a scope does not write the name outside of it. -/
theorem variables_are_read_and_written_at_one_place (call : Invoke) (hS : e.heap.Tree S) (hs : S s)
    (name : String) :
    ∃ p, e.heap.Target name s p ∧ (∀ q, e.heap.Target name s q → q = p) ∧
      e.heap.lookup? s name = e.heap.stored? name p ∧
      ((∀ r, e.heap.stored? name p ≠ some (.property r)) →
        Script.getVariable call s name e = .ok ((e.heap.stored? name p).getD .undefined) e ∧
        ∀ v, (∀ r, v ≠ .property r) → ∃ e', Script.setVariable call s name v e = .ok () e' ∧
          Assigned call S s name p v e e') ∧
      (∀ r, e.heap.stored? name p = some (.property r) →
        Accessed call s name (e.heap.property r) e) ∧
      (∀ c g, Relation.ReflTransGen e.heap.Parent s c → e.heap.ownPlace? name c ≠ none →
        Relation.TransGen e.heap.Parent c g → p ≠ .variable g) ∧
      ∀ source chunk fuel c, compile source = .ok chunk → ∃ args,
        Engine.evalIn (fuel + 1) source c e =
          execute (callWithin fuel) fuel chunk c .void args e ∧
        ∀ e₀ f e₁, newFrame chunk c .void args e₀ = .ok f e₁ → ∀ e₂ : Engine,
          e₁.heap.Extends e₂.heap → e₂.heap.Parent f.activation c := by
  obtain ⟨p, hp⟩ := hS.exists_target hs name
  have hlookup := hp.lookup? hS hs
  refine ⟨p, hp, fun q => hp.unique hS hs, hlookup, fun hplain => ⟨?_, fun v hv => ?_⟩,
    fun r => accessed call hS hs hp, fun c g => hp.not_outer hS hs, ?_⟩
  · rw [← hlookup] at hplain ⊢
    exact Script.getVariable_plain hS hs hplain
  · exact ⟨_, Script.setVariable_plain hS hs hp hplain v, assigned call hS hs hp hv⟩
  · intro source chunk fuel c hcompile
    obtain ⟨args, hrun⟩ := evalIn_eq hcompile fuel c e
    exact ⟨args, hrun, fun e₀ f e₁ hf e₂ => parent_newFrame hf⟩

end Variables

/-- A scope inside the global one, with an activation in it and one more inside that. All three of
`x`, the property `p` and the local `y` are bound outside of the last one, which is linked to `y`. -/
def nestedScopes : Engine where
  limits := {}
  heap :=
    { scopes := #[.named none ((({} : Std.HashMap String Value).insert "x" (.str "global")).insert "p"
          (.property ⟨0⟩)),
        .named (some ⟨0⟩) (({} : Std.HashMap String Value).insert "x" (.str "inner")),
        .activation ⟨1⟩ ⟨0⟩ (({} : Std.HashMap String Nat).insert "y" 0) ∅,
        .activation ⟨2⟩ ⟨1⟩ ∅ (({} : Std.HashMap String Cell).insert "y" ⟨⟨0⟩, 0⟩)]
      windows := #[#[.str "local", .void], #[]]
      properties := #[{ getter := some { body := .native (.host .nothing) }, setter := none }] }
  globalScope := ⟨0⟩
  numberClass := ⟨0⟩
  stringClass := ⟨0⟩
  arrayClass := ⟨0⟩
  dictClass := ⟨0⟩

theorem of_register?_nestedScopes {s : ScopeRef} {name : String} {c : Cell}
    (h : (nestedScopes.heap.scope s).register? name = some c) : name = "y" ∧ c = ⟨⟨0⟩, 0⟩ := by
  by_cases hname : name = "y"
  · subst hname
    rcases s with ⟨_ | _ | _ | _ | s⟩ <;>
      simp [nestedScopes, Heap.scope, Scope.register?] at h <;> exact ⟨rfl, h.symm⟩
  · have hne : ¬"y" = name := fun heq => hname heq.symm
    rcases s with ⟨_ | _ | _ | _ | s⟩ <;>
      simp [nestedScopes, Heap.scope, Scope.register?, hne] at h

theorem tree_nestedScopes : nestedScopes.heap.Tree (·.index < 4) := by
  refine ⟨fun s hs => hs, ?_, fun s name c _ hc => ?_, fun s s' name name' c _ _ hc hc' => ?_⟩
  · rintro ⟨_ | _ | _ | _ | s⟩ u hs hu <;> cases hu <;> decide
  · obtain ⟨-, rfl⟩ := of_register?_nestedScopes hc
    decide
  · rw [(of_register?_nestedScopes hc).1, (of_register?_nestedScopes hc').1]

/-- A write of `x` from the innermost activation goes to the scope inside the global one. It leaves
the `x` of the global scope and the local `y` alone, and `p` cannot be written. -/
theorem variables_are_read_and_written_at_one_place_nested : ∃ e' : Engine,
    Script.setVariable (callWithin 1) ⟨3⟩ "x" (.str "new") nestedScopes = .ok () e' ∧
    Script.getVariable (callWithin 1) ⟨3⟩ "x" e' = .ok (.str "new") e' ∧
    e'.heap.stored? "x" (.variable ⟨0⟩) = some (.str "global") ∧
    e'.heap.lookup? ⟨3⟩ "y" = some (.str "local") ∧
    Script.getVariable (callWithin 1) ⟨3⟩ "p" nestedScopes =
      callWithin 1 { body := .native (.host .nothing) } #[] nestedScopes ∧
    Script.setVariable (callWithin 1) ⟨3⟩ "p" .void nestedScopes =
      .error (.runtime .noSetter) nestedScopes := by
  have hnone : ∀ name, name ≠ "y" → nestedScopes.heap.ownPlace? name ⟨3⟩ = none ∧
      nestedScopes.heap.ownPlace? name ⟨2⟩ = none := by
    intro name hname
    have hne : ¬"y" = name := fun heq => hname heq.symm
    constructor <;> simp [Heap.ownPlace?, Heap.scope, nestedScopes, hne]
  have hfrom : ∀ name p, name ≠ "y" → nestedScopes.heap.Binds name ⟨1⟩ p →
      nestedScopes.heap.Target name ⟨3⟩ p := fun name p hname hp =>
    .inl (.around (u := ⟨2⟩) (hnone name hname).1 rfl (.around (u := ⟨1⟩) (hnone name hname).2 rfl hp))
  have hx : nestedScopes.heap.Target "x" ⟨3⟩ (.variable ⟨1⟩) :=
    hfrom "x" _ (by decide) (.own (by simp [Heap.ownPlace?, Heap.scope, nestedScopes]))
  have hp : nestedScopes.heap.Target "p" ⟨3⟩ (.variable ⟨0⟩) := by
    refine hfrom "p" _ (by decide) (.around (u := ⟨0⟩) ?_ rfl (.own ?_)) <;>
      simp [Heap.ownPlace?, Heap.scope, nestedScopes]
  obtain ⟨p, -, hunique, -, hplain, -⟩ := variables_are_read_and_written_at_one_place (callWithin 1)
    tree_nestedScopes (s := ⟨3⟩) (by decide) "x"
  obtain rfl := hunique _ hx
  obtain ⟨q, -, hunique', -, -, hproperty, -⟩ := variables_are_read_and_written_at_one_place
    (callWithin 1) tree_nestedScopes (s := ⟨3⟩) (by decide) "p"
  obtain rfl := hunique' _ hp
  have hstored : nestedScopes.heap.stored? "x" (.variable ⟨1⟩) = some (.str "inner") := by
    simp [Heap.stored?, Heap.scope, nestedScopes]
  have hglobal : nestedScopes.heap.stored? "x" (.variable ⟨0⟩) = some (.str "global") := by
    simp [Heap.stored?, Heap.scope, nestedScopes, Std.HashMap.getElem_insert]
  have hlocal : nestedScopes.heap.lookup? ⟨3⟩ "y" = some (.str "local") := by
    have hy : nestedScopes.heap.Binds "y" ⟨3⟩ (.register ⟨⟨0⟩, 0⟩) :=
      .own (by simp [Heap.ownPlace?, Heap.scope, nestedScopes])
    exact Heap.Target.lookup? tree_nestedScopes (by decide) (.inl hy)
  have haccessed := hproperty ⟨0⟩ (by simp [Heap.stored?, Heap.scope, nestedScopes])
  obtain ⟨-, hwrite⟩ := hplain (hstored ▸ fun r h => Value.noConfusion (Option.some.inj h))
  obtain ⟨e', hrun, h⟩ := hwrite (.str "new") fun r => Value.noConfusion
  exact ⟨e', hrun, h.read.1, (h.kept _ _ (by simp)).trans hglobal,
    (h.others ⟨3⟩ "y" (by decide) (by decide)).1.trans hlocal, haccessed.getter _ rfl,
    haccessed.noSetter rfl _⟩

end ScriptEngine
