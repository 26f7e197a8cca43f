import ScriptEngine.Proofs.Expression.Simulation

/-!
# Operators with a target

When an assignment, a step or a deletion is seen, the load of its target has been emitted. It is
the last instruction of the target's code, so it can be rewritten there: what comes before it
finds what the target refers to, whatever takes the place of the load.

A member is kept in two registers at or near the destination while the operator computes above
them.
-/

namespace ScriptEngine

variable {x : Context} {target e : Expr} {d : Int} {c : Draft} {T : Int → Value} {place : Position}

/-- The operand of an operator without a fault is a target. -/
theorem Expr.isTarget_of_fault {φ : Option Position}
    (h : target.fault?.or (if target.isTarget then φ else some place) = none) :
    target.fault? = none ∧ target.isTarget = true ∧ φ = none := by
  obtain ⟨hfault, h⟩ := Option.or_eq_none_iff.1 h
  split at h
  · exact ⟨hfault, ‹_›, h⟩
  · cases h

/-! ## The load of a target -/

/-- The index of the load of a target. -/
def Expr.loadIndex (names : Names) (target : Expr) (d : Int) (c : Draft) : Nat :=
  (target.gen names d c).size - 1

theorem Expr.size_gen_sub_one (names : Names) (target : Expr) (d : Int) (c : Draft) :
    (target.gen names d c).size - 1 = target.loadIndex names d c := by
  rw [loadIndex]

theorem Expr.loadIndex_succ (names : Names) (target : Expr) (d : Int) (c : Draft) :
    target.loadIndex names d c + 1 = (target.gen names d c).size := by
  have hlt := (target.le_gen names d c).2
  unfold loadIndex
  omega

/-- The load of a target is rewritten. -/
theorem Expr.modify_load (names : Names) (ht : target.isTarget = true) (d : Int) (c : Draft)
    (f : Instruction → Instruction) (n : Nat) :
    (target.gen names d c).modifyAt (target.loadIndex names d c) f =
      (target.gen names d c).pop.push (f ((target.operand names d n).fetch d target.place)) := by
  have hgen := target.gen_target names ht d c n
  calc (target.gen names d c).modifyAt (target.loadIndex names d c) f
    _ = ((target.gen names d c).pop.push ((target.operand names d n).fetch d target.place)).modifyAt
        (((target.gen names d c).pop.push
          ((target.operand names d n).fetch d target.place)).size - 1) f := by
      rw [← hgen, loadIndex]
    _ = _ := Draft.push_modifyAt_last _ _

/-- What takes the place of the load. -/
theorem Chunk.Covers.load {names : Names} {i : Instruction} {F : Chunk}
    (h : F.Covers c.size ((target.gen names d c).pop.push i)) :
    F.code[target.loadIndex names d c]? = some i := by
  have hcode := h.push (target.le_pop_gen names d c).size
  rwa [Draft.size_pop] at hcode

section

variable {α : Type} {i : Instruction} {k : Reference → Script α} {pc' n : Nat}
  {Q : α → (Int → Value) → Prop} (h : target.Found x) (ht : target.isTarget = true) (hd : 2 ≤ d)
  (hagrees : x.Agrees T) (hcov : x.frame.chunk.Covers c.size ((target.gen x.names d c).pop.push i))
  (hfault : target.fault? = none)

include h ht hd hagrees hcov hfault

/-- A local is found. -/
theorem runs_local {r : Int} (hop : target.operand x.names d n = .slot r n)
    (hk : ∀ T₁, Below d T T₁ →
      x.Runs T₁ (target.loadIndex x.names d c) (k (.slot target.place r)) pc' Q) :
    x.Runs T c.size (target.refer x >>= k) pc' Q := by
  refine (h ht d c T n hd hagrees (hcov.mono ((Draft.Le.refl _).push _)) hfault).bind
    fun ref T₁ ⟨href, hbelow⟩ => ?_
  rw [hop] at href
  obtain rfl : ref = .slot target.place r := href
  exact hk T₁ hbelow

/-- A member is found. -/
theorem runs_member {a b : Int} (hop : target.operand x.names d n = .member a b n)
    (hk : ∀ T₁, Below d T T₁ →
      x.Runs T₁ (target.loadIndex x.names d c) (k (.member target.place (T₁ a) (T₁ b))) pc' Q) :
    x.Runs T c.size (target.refer x >>= k) pc' Q := by
  refine (h ht d c T n hd hagrees (hcov.mono ((Draft.Le.refl _).push _)) hfault).bind
    fun ref T₁ ⟨href, hbelow⟩ => ?_
  rw [hop] at href
  obtain rfl : ref = .member target.place (T₁ a) (T₁ b) := href
  exact hk T₁ hbelow

end

/-- A register above those of a member. -/
theorem lt_above (a b d : Int) :
    d < Compile.above d a b ∧ a < Compile.above d a b ∧ b < Compile.above d a b := by
  unfold Compile.above
  omega

/-- A member is written, and the result goes into its register. -/
theorem runs_store (hx : x.Proper) {pc : Nat} {a b t w : Int}
    (hset : x.frame.chunk.code[pc]? = some ⟨.dotSet, a, b, t, place⟩)
    (hcopy : x.frame.chunk.code[pc + 1]? = some ⟨.copy, d, w, 0, place⟩) (ha : 0 ≤ a) (hb : 0 ≤ b)
    (ht : 0 ≤ t) (hd : 0 ≤ d) (hw : 0 ≤ w) :
    x.Runs T pc (do
      Script.tracing place (Script.setMember x.call (T a) (T b) (T t))
      return T w) (pc + 1 + 1) fun v T' => T' d = v ∧ Below d T T' := by
  refine (x.runs_dotSet hx hset ht ha hb).bind fun _ T₁ hT₁ => ?_
  subst hT₁
  refine (x.runs_copy hx hcopy hd hw).imp fun v T' hT' => ?_
  rw [hT']
  exact (Below.refl d _).written v

/-! ## Operators behind a reference -/

section

variable (hx : x.Proper) {pc : Nat} {a b r t : Int} {q : Position}

include hx

/-- The new value of a local, from its old value and the right side. -/
theorem runs_combineLocal {o : Op} (ho : o.combines = true)
    (hop : x.frame.chunk.code[pc]? = some ⟨o, d, d, d + 1, place⟩)
    (hcopy : x.frame.chunk.code[pc + 1]? = some ⟨.copy, r, d, 0, place⟩) (hd : 0 ≤ d) (hr : r < 0) :
    x.Runs T pc (do
      let v ← Script.tracing place (o.combine (T d) (T (d + 1)))
      Script.tracing place (x.frame.assign x.call r v)
      return v) (pc + 1 + 1) fun v T' => T' d = v ∧ Below d T T' := by
  refine (x.runs_combine hx hop ho hd hd (by omega)).bind fun v T₁ hT₁ => ?_
  have hwritten := (Below.refl d T).written v
  rw [← hT₁] at hwritten
  rw [← hwritten.1]
  refine (x.runs_assignLocal hx hcopy hd hr).bind fun _ T₂ hT₂ => .pure ?_
  subst hT₂
  exact ⟨rfl, hwritten.2⟩

/-- The new value of a member, from its old value and the right side. -/
theorem runs_combineMember {o : Op} (ho : o.combines = true)
    (hop : x.frame.chunk.code[pc]? = some ⟨o, t, t, t + 1, place⟩)
    (hset : x.frame.chunk.code[pc + 1]? = some ⟨.dotSet, a, b, t, place⟩)
    (hcopy : x.frame.chunk.code[pc + 1 + 1]? = some ⟨.copy, d, t, 0, place⟩) (hd : 0 ≤ d)
    (ha : 0 ≤ a) (hb : 0 ≤ b) (ht : d < t ∧ a < t ∧ b < t) :
    x.Runs T pc (do
      let v ← Script.tracing place (o.combine (T t) (T (t + 1)))
      Script.tracing place (Script.setMember x.call (T a) (T b) v)
      return v) (pc + 1 + 1 + 1) fun v T' => T' d = v ∧ Below d T T' := by
  refine (x.runs_combine hx hop ho (by omega) (by omega) (by omega)).bind fun v T₁ hT₁ => ?_
  have hkept := (Below.refl t T).written v
  rw [← hT₁] at hkept
  rw [← hkept.1, ← hkept.2 a ht.2.1, ← hkept.2 b ht.2.2]
  refine (runs_store hx hset hcopy ha hb (by omega) hd (by omega)).imp
    fun v T₂ ⟨hv, hbelow⟩ => ⟨hv, ?_⟩
  exact ((Below.refl d T).trans hkept.2 ht.1.le).trans hbelow (le_refl d)

variable (op : StepOp)

/-- A step of a member, whose value is the new one. -/
theorem runs_stepBeforeMember (hload : x.frame.chunk.code[pc]? = some ⟨.dot, t, a, b, q⟩)
    (hstep : x.frame.chunk.code[pc + 1]? = some ⟨op.before, t, t, 0, place⟩)
    (hset : x.frame.chunk.code[pc + 1 + 1]? = some ⟨.dotSet, a, b, t, place⟩)
    (hcopy : x.frame.chunk.code[pc + 1 + 1 + 1]? = some ⟨.copy, d, t, 0, place⟩) (hd : 0 ≤ d)
    (ha : 0 ≤ a) (hb : 0 ≤ b) (ht : d < t ∧ a < t ∧ b < t) :
    x.Runs T pc (do
      let old ← Script.tracing q (Script.getMember x.call (T a) (T b))
      let v ← Script.tracing place (op.next old)
      Script.tracing place (Script.setMember x.call (T a) (T b) v)
      return v) (pc + 1 + 1 + 1 + 1) fun v T' => T' d = v ∧ Below d T T' := by
  refine (x.runs_dot hx hload (by omega) ha hb).bind fun old T₁ hT₁ => ?_
  have hwritten := (Below.refl t T).written old
  rw [← hT₁] at hwritten
  rw [← hwritten.1]
  refine (x.runs_stepBefore hx op hstep (by omega)).bind fun v T₂ hT₂ => ?_
  have hkept := hwritten.2.written v
  rw [← hT₂] at hkept
  rw [← hkept.1, ← hkept.2 a ht.2.1, ← hkept.2 b ht.2.2]
  refine (runs_store hx hset hcopy ha hb (by omega) hd (by omega)).imp
    fun v T₃ ⟨hv, hbelow⟩ => ⟨hv, ?_⟩
  exact ((Below.refl d T).trans hkept.2 ht.1.le).trans hbelow (le_refl d)

/-- A step of a member, whose value is the old one. -/
theorem runs_stepAfterMember (hload : x.frame.chunk.code[pc]? = some ⟨.dot, t, a, b, q⟩)
    (hstep : x.frame.chunk.code[pc + 1]? = some ⟨op.after, t + 1, t, 0, place⟩)
    (hset : x.frame.chunk.code[pc + 1 + 1]? = some ⟨.dotSet, a, b, t, place⟩)
    (hcopy : x.frame.chunk.code[pc + 1 + 1 + 1]? = some ⟨.copy, d, t + 1, 0, place⟩) (hd : 0 ≤ d)
    (ha : 0 ≤ a) (hb : 0 ≤ b) (ht : d < t ∧ a < t ∧ b < t) :
    x.Runs T pc (do
      let old ← Script.tracing q (Script.getMember x.call (T a) (T b))
      let v ← Script.tracing place (op.next old)
      Script.tracing place (Script.setMember x.call (T a) (T b) v)
      return old) (pc + 1 + 1 + 1 + 1) fun v T' => T' d = v ∧ Below d T T' := by
  refine (x.runs_dot hx hload (by omega) ha hb).bind fun old T₁ hT₁ => ?_
  have hwritten := (Below.refl t T).written old
  rw [← hT₁] at hwritten
  -- The old value goes into the register above the new one.
  obtain rfl : T₁ t = old := hwritten.1
  refine (x.runs_stepAfter hx op hstep (by omega) (by omega)).bind fun v T₂ hT₂ => ?_
  have hkept := (hwritten.2.update (show t ≤ t + 1 by omega) (T₁ t)).written v
  rw [← hT₂] at hkept
  have hold : T₂ (t + 1) = T₁ t := by
    rw [hT₂, Function.update_of_ne (by omega), Function.update_self]
  rw [← hkept.1, ← hkept.2 a ht.2.1, ← hkept.2 b ht.2.2, ← hold]
  refine (runs_store hx hset hcopy ha hb (by omega) hd (by omega)).imp
    fun v T₃ ⟨hv, hbelow⟩ => ⟨hv, ?_⟩
  exact ((Below.refl d T).trans hkept.2 ht.1.le).trans hbelow (le_refl d)

/-- A local is cleared. -/
theorem runs_deleteLocal (hclear : x.frame.chunk.code[pc]? = some ⟨.loadVoid, r, 0, 0, place⟩)
    (hvoid : x.frame.chunk.code[pc + 1]? = some ⟨.loadVoid, d, 0, 0, place⟩) (hd : 0 ≤ d)
    (hr : r < 0) :
    x.Runs T pc (do
      Script.tracing place (x.frame.write r .void)
      return .void) (pc + 1 + 1) fun v T' => T' d = v ∧ Below d T T' := by
  refine (x.runs_clearLocal hx hclear hr).bind fun _ T₁ hT₁ => ?_
  subst hT₁
  refine (x.runs_loadVoid hx hvoid hd).imp fun v T' hT' => ?_
  rw [hT']
  exact (Below.refl d T₁).written v

/-- A member is removed. -/
theorem runs_deleteMember (hdelete : x.frame.chunk.code[pc]? = some ⟨.delete, a, b, 0, place⟩)
    (hvoid : x.frame.chunk.code[pc + 1]? = some ⟨.loadVoid, d, 0, 0, place⟩) (hd : 0 ≤ d)
    (ha : 0 ≤ a) (hb : 0 ≤ b) :
    x.Runs T pc (do
      Script.tracing place (Script.removeMember (T a) (T b))
      return .void) (pc + 1 + 1) fun v T' => T' d = v ∧ Below d T T' := by
  refine (x.runs_delete hx hdelete ha hb).bind fun _ T₁ hT₁ => ?_
  subst hT₁
  refine (x.runs_loadVoid hx hvoid hd).imp fun v T' hT' => ?_
  rw [hT']
  exact (Below.refl d T₁).written v

end

/-! ## Assignments -/

section

variable (hx : x.Proper) (htarget : target.Found x) (he : e.Right x) (hd : 2 ≤ d)
  (hagrees : x.Agrees T) (hfault : target.fault? = none) (ht : target.isTarget = true)
  (hefault : e.fault? = none)

include hx htarget he hd hagrees hfault ht hefault

theorem runs_assign_local {r : Int} (hr : r < 0)
    (hop : target.operand x.names d (target.loadIndex x.names d c) =
      .slot r (target.loadIndex x.names d c))
    (hcov : x.frame.chunk.Covers c.size ((e.gen x.names d ((target.gen x.names d c).erase
      (target.loadIndex x.names d c))).emit place .copy r d)) :
    x.Runs T c.size ((Expr.assign target .plain place e).value x)
      ((e.gen x.names d ((target.gen x.names d c).erase (target.loadIndex x.names d c))).size + 1)
      fun v T' => T' d = v ∧ Below d T T' := by
  have hcove := hcov.mono ((Draft.Le.refl _).emit ..)
  have hle := e.le_gen x.names d ((target.gen x.names d c).erase (target.loadIndex x.names d c))
  have hfront := hcove.mono hle.1
  rw [Draft.erase, target.modify_load x.names ht d c _ 0] at hfront
  have hsize := (target.le_gen x.names d c).2
  rw [Draft.size_erase] at hle
  rw [Expr.value_assign]
  refine runs_local htarget ht hd hagrees hfront hfault hop fun T₁ hbelow => ?_
  refine (x.runs_nop hx hfront.load).silent fun T₂ hT₂ => ?_
  subst hT₂
  have hvalue := he d _ T₂ hd (hagrees.below hbelow hd)
    (hcove.later (by rw [Draft.size_erase]; omega)) hefault
  rw [Draft.size_erase, ← target.loadIndex_succ] at hvalue
  refine hvalue.bind fun v T₃ ⟨hv, hbelow'⟩ => ?_
  subst hv
  refine (x.runs_assignLocal hx (hcov.emit (by omega)) (by omega) hr).bind fun _ T₄ hT₄ => .pure ?_
  subst hT₄
  exact ⟨rfl, hbelow.trans hbelow' (le_refl d)⟩

theorem runs_assign_member {a b t : Int} (ha : 0 ≤ a) (hb : 0 ≤ b)
    (ht' : d < t ∧ a < t ∧ b < t)
    (hop : target.operand x.names d (target.loadIndex x.names d c) =
      .member a b (target.loadIndex x.names d c))
    (hcov : x.frame.chunk.Covers c.size (((e.gen x.names t ((target.gen x.names d c).erase
      (target.loadIndex x.names d c))).emit place .dotSet a b t).emit place .copy d t)) :
    x.Runs T c.size ((Expr.assign target .plain place e).value x)
      ((e.gen x.names t ((target.gen x.names d c).erase (target.loadIndex x.names d c))).size + 1 + 1)
      fun v T' => T' d = v ∧ Below d T T' := by
  have hcovset := hcov.mono ((Draft.Le.refl _).emit ..)
  have hcove := hcovset.mono ((Draft.Le.refl _).emit ..)
  have hle := e.le_gen x.names t ((target.gen x.names d c).erase (target.loadIndex x.names d c))
  have hfront := hcove.mono hle.1
  rw [Draft.erase, target.modify_load x.names ht d c _ 0] at hfront
  have hsize := (target.le_gen x.names d c).2
  rw [Draft.size_erase] at hle
  rw [Expr.value_assign]
  refine runs_member htarget ht hd hagrees hfront hfault hop fun T₁ hbelow => ?_
  refine (x.runs_nop hx hfront.load).silent fun T₂ hT₂ => ?_
  subst hT₂
  have hvalue := he t _ T₂ (by omega) (hagrees.below hbelow hd)
    (hcove.later (by rw [Draft.size_erase]; omega)) hefault
  rw [Draft.size_erase, ← target.loadIndex_succ] at hvalue
  refine hvalue.bind fun v T₃ ⟨hv, hbelow'⟩ => ?_
  subst hv
  rw [← hbelow' a ht'.2.1, ← hbelow' b ht'.2.2]
  have hcopy := hcov.emit (by rw [Draft.size_emit]; omega)
  rw [Draft.size_emit] at hcopy
  refine (runs_store hx (hcovset.emit (by omega)) hcopy ha hb (by omega) (by omega)
    (by omega)).imp fun v T₄ ⟨hv, hbelow''⟩ => ⟨hv, ?_⟩
  exact (hbelow.trans hbelow' ht'.1.le).trans hbelow'' (le_refl d)

theorem runs_compound_local {r : Int} {op : AssignOp} {o : Op} (ho : op.op? = some o) (hr : r < 0)
    (hop : target.operand x.names d (target.loadIndex x.names d c) =
      .slot r (target.loadIndex x.names d c))
    (hcov : x.frame.chunk.Covers c.size (((e.gen x.names (d + 1) (target.gen x.names d c)).emit place
      o d d (d + 1)).emit place .copy r d)) :
    x.Runs T c.size ((Expr.assign target op place e).value x)
      ((e.gen x.names (d + 1) (target.gen x.names d c)).size + 1 + 1)
      fun v T' => T' d = v ∧ Below d T T' := by
  have hcovop := hcov.mono ((Draft.Le.refl _).emit ..)
  have hcove := hcovop.mono ((Draft.Le.refl _).emit ..)
  have hle := e.le_gen x.names (d + 1) (target.gen x.names d c)
  have hfront := hcove.mono hle.1
  rw [target.gen_target x.names ht d c (target.loadIndex x.names d c)] at hfront
  have hsize := (target.le_gen x.names d c).2
  rw [Expr.value_compound x target ho]
  refine runs_local htarget ht hd hagrees hfront hfault hop fun T₁ hbelow => ?_
  have hload := hfront.load
  rw [hop] at hload
  refine (x.runs_readLocal hx hload (by omega) hr).bind fun old T₂ hT₂ => ?_
  have hwritten := hbelow.written old
  rw [← hT₂] at hwritten
  rw [target.loadIndex_succ]
  refine (he (d + 1) _ T₂ (by omega) (hagrees.below hwritten.2 hd) (hcove.later (by omega))
    hefault).bind fun w T₃ ⟨hw, hbelow'⟩ => ?_
  obtain rfl : T₃ d = old := (hbelow' d (by omega)).trans hwritten.1
  subst hw
  have hcopy := hcov.emit (by rw [Draft.size_emit]; omega)
  rw [Draft.size_emit] at hcopy
  refine (runs_combineLocal hx (AssignOp.combines ho) (hcovop.emit (by omega)) hcopy (by omega)
    hr).imp fun v T₄ ⟨hv, hbelow''⟩ => ⟨hv, ?_⟩
  exact (hwritten.2.trans hbelow' (by omega)).trans hbelow'' (le_refl d)

theorem runs_compound_member {a b t : Int} {op : AssignOp} {o : Op} (ho : op.op? = some o)
    (ha : 0 ≤ a) (hb : 0 ≤ b) (ht' : d < t ∧ a < t ∧ b < t)
    (hop : target.operand x.names d (target.loadIndex x.names d c) =
      .member a b (target.loadIndex x.names d c))
    (hcov : x.frame.chunk.Covers c.size ((((e.gen x.names (t + 1) ((target.gen x.names d c).modifyAt
      (target.loadIndex x.names d c) ({ · with a := t }))).emit place o t t (t + 1)).emit place .dotSet
        a b t).emit place .copy d t)) :
    x.Runs T c.size ((Expr.assign target op place e).value x)
      ((e.gen x.names (t + 1) ((target.gen x.names d c).modifyAt (target.loadIndex x.names d c)
        ({ · with a := t }))).size + 1 + 1 + 1)
      fun v T' => T' d = v ∧ Below d T T' := by
  have hcovset := hcov.mono ((Draft.Le.refl _).emit ..)
  have hcovop := hcovset.mono ((Draft.Le.refl _).emit ..)
  have hcove := hcovop.mono ((Draft.Le.refl _).emit ..)
  have hle := e.le_gen x.names (t + 1) ((target.gen x.names d c).modifyAt
    (target.loadIndex x.names d c) ({ · with a := t }))
  have hfront := hcove.mono hle.1
  rw [target.modify_load x.names ht d c _ (target.loadIndex x.names d c)] at hfront
  have hsize := (target.le_gen x.names d c).2
  rw [Draft.size_modifyAt] at hle
  rw [Expr.value_compound x target ho]
  refine runs_member htarget ht hd hagrees hfront hfault hop fun T₁ hbelow => ?_
  have hload := hfront.load
  rw [hop] at hload
  refine (x.runs_dot hx hload (by omega) ha hb).bind fun old T₂ hT₂ => ?_
  have hwritten := (Below.refl t T₁).written old
  rw [← hT₂] at hwritten
  have hbelow₂ := hbelow.trans hwritten.2 ht'.1.le
  have hvalue := he (t + 1) _ T₂ (by omega) (hagrees.below hbelow₂ hd)
    (hcove.later (by rw [Draft.size_modifyAt]; omega)) hefault
  rw [Draft.size_modifyAt, ← target.loadIndex_succ] at hvalue
  refine hvalue.bind fun w T₃ ⟨hw, hbelow'⟩ => ?_
  obtain rfl : T₃ t = old := (hbelow' t (by omega)).trans hwritten.1
  subst hw
  have hkept := hwritten.2.trans hbelow' (by omega)
  rw [← hkept a ht'.2.1, ← hkept b ht'.2.2]
  have hset := hcovset.emit (by rw [Draft.size_emit]; omega)
  have hcopy := hcov.emit (by simp only [Draft.size_emit]; omega)
  simp only [Draft.size_emit] at hset hcopy
  refine (runs_combineMember hx (AssignOp.combines ho) (hcovop.emit (by omega)) hset hcopy (by omega)
    ha hb ht').imp fun v T₄ ⟨hv, hbelow''⟩ => ⟨hv, ?_⟩
  exact (hbelow.trans hkept ht'.1.le).trans hbelow'' (le_refl d)

end

/-- An assignment, plain or with an operation. -/
theorem Expr.right_assign (hx : x.Proper) (htarget : target.Found x) (he : e.Right x)
    (op : AssignOp) (place : Position) : (assign target op place e).Right x := by
  intro d c T hd hagrees hcov hfault
  rw [Expr.fault?] at hfault
  obtain ⟨htfault, ht, hefault⟩ := Expr.isTarget_of_fault hfault
  rcases operand_cases ht hx.locals hd (target.loadIndex x.names d c) with
    ⟨r, hr, hop⟩ | ⟨a, b, ha, -, hb, -, hop⟩
  · rcases op with _ | ⟨kind, o, ho⟩ <;>
      simp only [Expr.gen, AssignOp.op?, size_gen_sub_one, hop, Draft.size_emit] at hcov ⊢
    · exact runs_assign_local hx htarget he hd hagrees htfault ht hefault hr hop hcov
    · exact runs_compound_local hx htarget he hd hagrees htfault ht hefault rfl hr hop hcov
  · rcases op with _ | ⟨kind, o, ho⟩ <;>
      simp only [Expr.gen, AssignOp.op?, size_gen_sub_one, hop, Draft.size_emit] at hcov ⊢
    · exact runs_assign_member hx htarget he hd hagrees htfault ht hefault ha hb (lt_above a b d) hop
        hcov
    · exact runs_compound_member hx htarget he hd hagrees htfault ht hefault rfl ha hb
        (lt_above a b d) hop hcov

/-! ## Steps and deletions -/

section

variable (hx : x.Proper) (htarget : target.Found x)

include hx htarget

theorem Expr.right_stepBefore (op : StepOp) (place : Position) :
    (stepBefore op place target).Right x := by
  intro d c T hd hagrees hcov hfault
  rw [Expr.fault?] at hfault
  obtain ⟨htfault, ht, -⟩ := Expr.isTarget_of_fault hfault
  have hsize := (target.le_gen x.names d c).2
  rw [Expr.value_stepBefore]
  rcases operand_cases ht hx.locals hd (target.loadIndex x.names d c) with
    ⟨r, hr, hop⟩ | ⟨a, b, ha, -, hb, -, hop⟩
  · simp only [Expr.gen, size_gen_sub_one, hop, Draft.size_emit, Draft.size_erase] at hcov ⊢
    have hfront := hcov.mono ((Draft.Le.refl _).emit ..)
    rw [Draft.erase, target.modify_load x.names ht d c _ 0] at hfront
    refine runs_local htarget ht hd hagrees hfront htfault hop fun T₁ hbelow => ?_
    refine (x.runs_nop hx hfront.load).silent fun T₂ hT₂ => ?_
    subst hT₂
    have hstep := hcov.emit (by rw [Draft.size_erase]; omega)
    rw [Draft.size_erase] at hstep
    rw [target.loadIndex_succ]
    refine (x.runs_stepBeforeLocal hx op hstep (by omega) hr _).imp fun v T' hT' => ?_
    rw [hT']
    exact hbelow.written v
  · simp only [Expr.gen, size_gen_sub_one, hop, Draft.size_emit, Draft.size_modifyAt] at hcov ⊢
    have ht' := lt_above a b d
    generalize Compile.above d a b = t at hcov ht'
    have hcovset := hcov.mono ((Draft.Le.refl _).emit ..)
    have hcovop := hcovset.mono ((Draft.Le.refl _).emit ..)
    have hfront := hcovop.mono ((Draft.Le.refl _).emit ..)
    rw [target.modify_load x.names ht d c _ (target.loadIndex x.names d c)] at hfront
    refine runs_member htarget ht hd hagrees hfront htfault hop fun T₁ hbelow => ?_
    have hload := hfront.load
    rw [hop] at hload
    have hstep := hcovop.emit (by rw [Draft.size_modifyAt]; omega)
    have hset := hcovset.emit (by simp only [Draft.size_emit, Draft.size_modifyAt]; omega)
    have hcopy := hcov.emit (by simp only [Draft.size_emit, Draft.size_modifyAt]; omega)
    simp only [Draft.size_emit, Draft.size_modifyAt, ← target.loadIndex_succ] at hstep hset hcopy ⊢
    refine (runs_stepBeforeMember hx op hload hstep hset hcopy (by omega) ha hb ht').imp
      fun v T' ⟨hv, hbelow'⟩ => ⟨hv, ?_⟩
    exact hbelow.trans hbelow' (le_refl d)

theorem Expr.right_stepAfter (op : StepOp) (place : Position) :
    (stepAfter target op place).Right x := by
  intro d c T hd hagrees hcov hfault
  rw [Expr.fault?] at hfault
  obtain ⟨htfault, ht, -⟩ := Expr.isTarget_of_fault hfault
  have hsize := (target.le_gen x.names d c).2
  rw [Expr.value_stepAfter]
  rcases operand_cases ht hx.locals hd (target.loadIndex x.names d c) with
    ⟨r, hr, hop⟩ | ⟨a, b, ha, -, hb, -, hop⟩
  · simp only [Expr.gen, size_gen_sub_one, hop, Draft.size_emit, Draft.size_erase] at hcov ⊢
    have hfront := hcov.mono ((Draft.Le.refl _).emit ..)
    rw [Draft.erase, target.modify_load x.names ht d c _ 0] at hfront
    refine runs_local htarget ht hd hagrees hfront htfault hop fun T₁ hbelow => ?_
    refine (x.runs_nop hx hfront.load).silent fun T₂ hT₂ => ?_
    subst hT₂
    have hstep := hcov.emit (by rw [Draft.size_erase]; omega)
    rw [Draft.size_erase] at hstep
    rw [target.loadIndex_succ]
    refine (x.runs_stepAfterLocal hx op hstep (by omega) hr _).imp fun v T' hT' => ?_
    rw [hT']
    exact hbelow.written v
  · simp only [Expr.gen, size_gen_sub_one, hop, Draft.size_emit, Draft.size_modifyAt] at hcov ⊢
    have ht' := lt_above a b d
    generalize Compile.above d a b = t at hcov ht'
    have hcovset := hcov.mono ((Draft.Le.refl _).emit ..)
    have hcovop := hcovset.mono ((Draft.Le.refl _).emit ..)
    have hfront := hcovop.mono ((Draft.Le.refl _).emit ..)
    rw [target.modify_load x.names ht d c _ (target.loadIndex x.names d c)] at hfront
    refine runs_member htarget ht hd hagrees hfront htfault hop fun T₁ hbelow => ?_
    have hload := hfront.load
    rw [hop] at hload
    have hstep := hcovop.emit (by rw [Draft.size_modifyAt]; omega)
    have hset := hcovset.emit (by simp only [Draft.size_emit, Draft.size_modifyAt]; omega)
    have hcopy := hcov.emit (by simp only [Draft.size_emit, Draft.size_modifyAt]; omega)
    simp only [Draft.size_emit, Draft.size_modifyAt, ← target.loadIndex_succ] at hstep hset hcopy ⊢
    refine (runs_stepAfterMember hx op hload hstep hset hcopy (by omega) ha hb ht').imp
      fun v T' ⟨hv, hbelow'⟩ => ⟨hv, ?_⟩
    exact hbelow.trans hbelow' (le_refl d)

theorem Expr.right_delete (place : Position) : (delete place target).Right x := by
  intro d c T hd hagrees hcov hfault
  rw [Expr.fault?] at hfault
  obtain ⟨htfault, ht, -⟩ := Expr.isTarget_of_fault hfault
  have hsize := (target.le_gen x.names d c).2
  rw [Expr.value_delete]
  rcases operand_cases ht hx.locals hd (target.loadIndex x.names d c) with
    ⟨r, hr, hop⟩ | ⟨a, b, ha, -, hb, -, hop⟩
  · simp only [Expr.gen, size_gen_sub_one, hop, Draft.size_emit, Draft.size_erase] at hcov ⊢
    have hcovclear := hcov.mono ((Draft.Le.refl _).emit ..)
    have hfront := hcovclear.mono ((Draft.Le.refl _).emit ..)
    rw [Draft.erase, target.modify_load x.names ht d c _ 0] at hfront
    refine runs_local htarget ht hd hagrees hfront htfault hop fun T₁ hbelow => ?_
    refine (x.runs_nop hx hfront.load).silent fun T₂ hT₂ => ?_
    subst hT₂
    have hclear := hcovclear.emit (by rw [Draft.size_erase]; omega)
    have hvoid := hcov.emit (by simp only [Draft.size_emit, Draft.size_erase]; omega)
    simp only [Draft.size_emit, Draft.size_erase] at hclear hvoid
    rw [target.loadIndex_succ]
    exact (runs_deleteLocal hx hclear hvoid (by omega) hr).imp fun v T' ⟨hv, hbelow'⟩ =>
      ⟨hv, hbelow.trans hbelow' (le_refl d)⟩
  · simp only [Expr.gen, size_gen_sub_one, hop, Draft.size_emit, Draft.size_modifyAt] at hcov ⊢
    have hfront := hcov.mono ((Draft.Le.refl _).emit ..)
    rw [target.modify_load x.names ht d c _ 0] at hfront
    refine runs_member htarget ht hd hagrees hfront htfault hop fun T₁ hbelow => ?_
    have hvoid := hcov.emit (by rw [Draft.size_modifyAt]; omega)
    rw [Draft.size_modifyAt, ← target.loadIndex_succ] at hvoid
    rw [← target.loadIndex_succ]
    exact (runs_deleteMember hx hfront.load hvoid (by omega) ha hb).imp fun v T' ⟨hv, hbelow'⟩ =>
      ⟨hv, hbelow.trans hbelow' (le_refl d)⟩

end

/-! ## All expressions -/

mutual

/-- The code of every expression computes its value. -/
theorem Expr.right (hx : x.Proper) : ∀ e : Expr, e.Right x
  | .number place n => Expr.right_number hx place n
  | .text place s => Expr.right_text hx place s
  | .truth place b => Expr.right_truth hx place b
  | .this place => Expr.right_this hx place
  | .global place => Expr.right_global hx place
  | .name place s => Expr.right_of_found hx rfl (Expr.found_name hx place s)
  | .paren opening e closing => Expr.right_paren (e.right hx) opening closing
  | .cast opening word place closing e => Expr.right_cast hx (e.right hx) opening word place closing
  | .unary op place e => Expr.right_unary hx (e.right hx) op place
  | .array opening items closing => Expr.right_array hx (items.right hx) opening closing
  | .dict opening entries closing => Expr.right_dict hx (entries.right hx) opening closing
  | .fresh place cls path => Expr.right_fresh hx (cls.right hx) place path
  | .freshWith place cls path opening args closing =>
    Expr.right_freshWith hx (cls.right hx) (args.right hx) place path opening closing
  | .binary l op place r => Expr.right_binary hx (l.right hx) (r.right hx) op place
  | .logic l op place r => Expr.right_logic hx (l.right hx) (r.right hx) op place
  | .comma l place r => Expr.right_comma (l.right hx) (r.right hx) place
  | .ternary c question a colon b =>
    Expr.right_ternary hx (c.right hx) (a.right hx) (b.right hx) question colon
  | .dot e place behind s =>
    Expr.right_of_found hx rfl (Expr.found_dot hx (e.right hx) place behind s)
  | .index e opening key closing =>
    Expr.right_of_found hx rfl (Expr.found_index (e.right hx) (key.right hx) opening closing)
  | .call e opening args closing => Expr.right_call hx (e.right hx) (args.right hx) opening closing
  | .assign target op place e => Expr.right_assign hx (target.found hx) (e.right hx) op place
  | .stepBefore op place target => Expr.right_stepBefore hx (target.found hx) op place
  | .stepAfter target op place => Expr.right_stepAfter hx (target.found hx) op place
  | .delete place target => Expr.right_delete hx (target.found hx) place

/-- The code of every target finds what it refers to. -/
theorem Expr.found (hx : x.Proper) : ∀ e : Expr, e.Found x
  | .name place s => Expr.found_name hx place s
  | .dot e place behind s => Expr.found_dot hx (e.right hx) place behind s
  | .index e opening key closing => Expr.found_index (e.right hx) (key.right hx) opening closing
  | .paren opening e closing => Expr.found_paren (e.found hx) opening closing
  | .comma l place r => Expr.found_comma (l.right hx) (r.found hx) place
  | .number _ _ | .text _ _ | .truth _ _ | .this _ | .global _ | .cast _ _ _ _ _ | .unary _ _ _
  | .array _ _ _ | .dict _ _ _ | .fresh _ _ _ | .freshWith _ _ _ _ _ _ | .binary _ _ _ _
  | .logic _ _ _ _ | .ternary _ _ _ _ _ | .call _ _ _ _ | .assign _ _ _ _ | .stepBefore _ _ _
  | .stepAfter _ _ _ | .delete _ _ => nofun

theorem Items.right (hx : x.Proper) : ∀ items : Items, items.Right x
  | .done => Items.right_done
  | .last e => Items.right_last (e.right hx)
  | .hole comma items => Items.right_hole hx (items.right hx) comma
  | .more e comma items => Items.right_more (e.right hx) (items.right hx) comma

theorem DictKey.right (hx : x.Proper) : ∀ key : DictKey, key.Right x
  | .label place s colon => DictKey.right_label hx place s colon
  | .computed e separator place => DictKey.right_computed (e.right hx) separator place

theorem Entries.right (hx : x.Proper) : ∀ entries : Entries, entries.Right x
  | .done => Entries.right_done
  | .last key e => Entries.right_last (key.right hx) (e.right hx)
  | .more key e comma entries =>
    Entries.right_more (key.right hx) (e.right hx) (entries.right hx) comma

end

end ScriptEngine
