import ScriptEngine.Proofs.Expression.Runs

/-!
# Instructions of expressions

What each instruction that expressions use does, as a run: the value that it computes from its
registers, and the register that holds the value afterwards.
-/

namespace ScriptEngine

/-! ## Operators -/

namespace Op

/-- The operators between two values. -/
def combines : Op → Bool
  | .bitAnd | .bitOr | .bitXor | .shl | .shr | .sub | .mod | .div | .mul | .add | .intDiv | .and
  | .or | .eq | .notEq | .strictEq | .strictNotEq | .gt | .ge | .lt | .le | .instanceOf => true
  | _ => false

/-- The operators on one value. -/
def converts : Op → Bool
  | .not | .bitNot | .toInt | .toReal | .toNumber | .negate | .toStr | .char | .strOf
  | .typeOf => true
  | _ => false

end Op

theorem BinaryOp.combines (op : BinaryOp) : op.op.combines = true := by
  obtain ⟨kind, op, h⟩ := op
  rcases kind with _ | _ | _ | word | sign | _
  case keyword =>
    cases word <;> cases h
    rfl
  case mark => cases sign <;> cases h <;> rfl
  all_goals cases h

theorem AssignOp.combines {op : AssignOp} {o : Op} (h : op.op? = some o) : o.combines = true := by
  obtain _ | ⟨kind, op, hop⟩ := op
  · cases h
  cases h
  rcases kind with _ | _ | _ | word | sign | _
  case mark => cases sign <;> cases hop <;> rfl
  all_goals cases hop

theorem LogicOp.combines (op : LogicOp) : op.op.combines = true := by
  cases op <;> rfl

theorem UnaryOp.converts (op : UnaryOp) : op.op.converts = true := by
  rcases op with _ | _ | _ | _ | _ | _ | _ | (_ | _ | _) <;> rfl

theorem Conversion.converts (word : Conversion) : word.op.converts = true := by
  cases word <;> rfl

namespace Frame

variable {f : Frame} {T : Int → Value} {call : Invoke} {i : Instruction} (hf : f.Proper none)

theorem Steady.toInt32 {ρ : Option Region} (v : Value) :
    f.Steady ρ (Script.ofExcept v.toInt32) :=
  .ofCalm (Script.calm_ofExcept fun _ => Script.toInt32_error)

theorem Steady.toNumber {ρ : Option Region} (v : Value) : f.Steady ρ (Script.toNumber v) :=
  .ofCalm (Script.calm_toNumber v)

theorem Steady.textOf {ρ : Option Region} (v : Value) : f.Steady ρ (Script.textOf v) :=
  .ofCalm (Script.calm_textOf v)

/-- Reading the heap, of which only what has nothing to do with registers matters. -/
theorem Mirrors.ofHeap {α β : Type} {k : Heap → Script β} {l : Heap → Script α}
    {Q : α → β → (Int → Value) → Prop} (hgraft : ∀ h t, k (Heap.graft f.temps t h) = k h)
    (h : ∀ h, f.Mirrors T (k h) (l h) Q) :
    f.Mirrors T (Script.getHeap >>= k) (Script.getHeap >>= l) Q := by
  intro e he
  have hfill : (Script.getHeap >>= k) (f.fill T e) = k e.heap (f.fill T e) := by
    show k (Heap.graft f.temps _ e.heap) (f.fill T e) = _
    rw [hgraft]
  rw [hfill]
  exact h e.heap e he

include hf

/-- The result of a computation that leaves temporaries alone goes into a register. -/
theorem Mirrors.store {n : Script Value} {r : Int} (hn : f.Steady f.temps n) (hr : 0 ≤ r)
    (hhas : f.Has r) :
    f.Mirrors T (n >>= f.write r) n fun v _ T' => T' = Function.update T r v := by
  have h : f.Mirrors T (n >>= f.write r) (n >>= Pure.pure) fun v _ T' =>
      T' = Function.update T r v := both hn fun _ => put hf hr hhas
  rwa [bind_pure] at h

variable (ha : 0 ≤ i.a ∧ f.Has i.a) (hb : 0 ≤ i.b ∧ f.Has i.b)

include ha hb

section

variable (hc : 0 ≤ i.c ∧ f.Has i.c)

include hc

theorem mirrors_intOp (op : Int32 → Int32 → Int32) :
    f.Mirrors T (f.intOp i op) (Op.wholes op (T i.b) (T i.c)) fun v _ T' =>
      T' = Function.update T i.a v := by
  simp only [intOp, int, bind_assoc]
  refine .read hf hb.1 hb.2 (.both (.toInt32 _) fun m => ?_)
  refine .read hf hc.1 hc.2 (.both (.toInt32 _) fun n => ?_)
  exact .put hf ha.1 ha.2

theorem mirrors_numberOp (op : Number → Number → Number) :
    f.Mirrors T (f.numberOp i op) (Op.reals op (T i.b) (T i.c)) fun v _ T' =>
      T' = Function.update T i.a v := by
  simp only [numberOp, number, bind_assoc]
  refine .read hf hb.1 hb.2 (.both (.toNumber _) fun m => ?_)
  refine .read hf hc.1 hc.2 (.both (.toNumber _) fun n => ?_)
  exact .put hf ha.1 ha.2

theorem mirrors_testOp (op : Value → Value → Bool) :
    f.Mirrors T (f.testOp i op) (pure (.ofBool (op (T i.b) (T i.c)))) fun v _ T' =>
      T' = Function.update T i.a v :=
  .read hf hb.1 hb.2 (.read hf hc.1 hc.2 (.put hf ha.1 ha.2))

theorem mirrors_orderOp {op : Heap → Value → Value → Bool}
    (hop : ∀ h t x y, op (Heap.graft f.temps t h) x y = op h x y) :
    f.Mirrors T (f.orderOp i false op)
        (do return .ofBool (op (← Script.getHeap) (T i.b) (T i.c)))
        (fun v _ T' => T' = Function.update T i.a v) ∧
      f.Mirrors T (f.orderOp i true op)
        (do return .ofBool (op (← Script.getHeap) (T i.c) (T i.b)))
        fun v _ T' => T' = Function.update T i.a v := by
  refine ⟨.read hf hb.1 hb.2 (.read hf hc.1 hc.2 ?_), .read hf hc.1 hc.2 (.read hf hb.1 hb.2 ?_)⟩
  · exact Mirrors.ofHeap (fun h t => by simp only [hop]) fun h => .put hf ha.1 ha.2
  · exact Mirrors.ofHeap (fun h t => by simp only [hop]) fun h => .put hf ha.1 ha.2

theorem mirrors_add :
    f.Mirrors T (f.add i) (Op.combine .add (T i.b) (T i.c)) fun v _ T' =>
      T' = Function.update T i.a v := by
  refine .read hf hb.1 hb.2 (.read hf hc.1 hc.2 ?_)
  generalize T i.b = v
  cases v with
  | str s => exact .both (.textOf _) fun text => .put hf ha.1 ha.2
  | _ => exact .both (.toNumber _) fun m => .both (.toNumber _) fun n => .put hf ha.1 ha.2

theorem mirrors_intDiv :
    f.Mirrors T (f.intDiv i) (Op.combine .intDiv (T i.b) (T i.c)) fun v _ T' =>
      T' = Function.update T i.a v := by
  simp only [intDiv, int, bind_assoc, Op.combine]
  refine .read hf hc.1 hc.2 (.both (.toInt32 _) fun divisor => ?_)
  by_cases hzero : divisor = 0
  · simp only [if_pos hzero]
    exact fun _ _ => ⟨T, rfl⟩
  · simp only [if_neg hzero]
    exact .read hf hb.1 hb.2 (.both (.toInt32 _) fun m => .put hf ha.1 ha.2)

theorem mirrors_instanceOf :
    f.Mirrors T (f.instanceOf i) (Op.combine .instanceOf (T i.b) (T i.c)) fun v _ T' =>
      T' = Function.update T i.a v := by
  refine .read hf hc.1 hc.2 (Mirrors.ofHeap (fun h t => ?_) fun h => ?_)
  · simp only [Heap.text_graft, Heap.classObject_graft, Heap.isInstanceOf_graft]
  · exact .read hf hb.1 hb.2 (.put hf ha.1 ha.2)

/-- An operator between two temporaries. -/
theorem mirrors_combine (hop : i.op.combines = true) :
    f.Mirrors T (f.perform call i) (i.op.combine (T i.b) (T i.c)) fun v _ T' =>
      T' = Function.update T i.a v := by
  obtain ⟨op, a, b, c, place⟩ := i
  dsimp only at ha hb hc hop ⊢
  cases op <;> try cases hop
  case bitAnd | bitOr | bitXor | shl | shr => exact mirrors_intOp hf ha hb hc _
  case sub | mod | div | mul => exact mirrors_numberOp hf ha hb hc _
  case add => exact mirrors_add hf ha hb hc
  case intDiv => exact mirrors_intDiv hf ha hb hc
  case and =>
    refine .read hf hb.1 hb.2 ?_
    simp only [Op.combine]
    rcases (T b).truthy
    · exact .put hf ha.1 ha.2
    · exact .read hf hc.1 hc.2 (.put hf ha.1 ha.2)
  case or =>
    refine .read hf hb.1 hb.2 ?_
    simp only [Op.combine]
    rcases (T b).truthy
    · exact .read hf hc.1 hc.2 (.put hf ha.1 ha.2)
    · exact .put hf ha.1 ha.2
  case eq | notEq | strictEq | strictNotEq => exact mirrors_testOp hf ha hb hc _
  case gt => exact (mirrors_orderOp hf ha hb hc fun _ _ _ _ => Heap.greaterThan_graft _ _).1
  case ge => exact (mirrors_orderOp hf ha hb hc fun _ _ _ _ => Heap.greaterOrEqual_graft _ _).1
  case lt => exact (mirrors_orderOp hf ha hb hc fun _ _ _ _ => Heap.greaterThan_graft _ _).2
  case le => exact (mirrors_orderOp hf ha hb hc fun _ _ _ _ => Heap.greaterOrEqual_graft _ _).2
  case instanceOf => exact mirrors_instanceOf hf ha hb hc

end

/-- An operator on a temporary. -/
theorem mirrors_convert (hop : i.op.converts = true) :
    f.Mirrors T (f.perform call i) (i.op.convert (T i.b)) fun v _ T' =>
      T' = Function.update T i.a v := by
  obtain ⟨op, a, b, c, place⟩ := i
  dsimp only at ha hb hop ⊢
  cases op <;> try cases hop
  case not | typeOf => exact .read hf hb.1 hb.2 (.put hf ha.1 ha.2)
  case bitNot | toInt =>
    simp only [perform, int, bind_assoc]
    exact .read hf hb.1 hb.2 (.both (.toInt32 _) fun n => .put hf ha.1 ha.2)
  case toReal | toNumber | negate =>
    simp only [perform, number, bind_assoc]
    exact .read hf hb.1 hb.2 (.both (.toNumber _) fun n => .put hf ha.1 ha.2)
  case toStr => exact .read hf hb.1 hb.2 (.both (.textOf _) fun text => .put hf ha.1 ha.2)
  case char =>
    refine .read hf hb.1 hb.2 (.both (.textOf _) fun text => ?_)
    rcases Text.charAt? text 0 with _ | first
    · exact .raise
    · exact .put hf ha.1 ha.2
  case strOf =>
    simp only [perform, stringOf, int, bind_assoc]
    refine .read hf hb.1 hb.2 (.both (.toInt32 _) fun n => ?_)
    by_cases hcode : 0 ≤ n.toInt ∧ n.toInt.toNat.isValidChar
    · simp only [if_pos hcode]
      exact .put hf ha.1 ha.2
    · simp only [if_neg hcode]
      exact .raise

end Frame

namespace Context

variable {x : Context} {T : Int → Value} {pc : Nat} {op : Op} {a b c d k r : Int} {place : Position}
  (hx : x.Proper)

include hx

theorem runs_combine (hi : x.frame.chunk.code[pc]? = some ⟨op, a, b, c, place⟩)
    (hop : op.combines = true) (ha : 0 ≤ a) (hb : 0 ≤ b) (hc : 0 ≤ c) :
    x.Runs T pc (Script.tracing place (op.combine (T b) (T c))) (pc + 1) fun v T' =>
      T' = Function.update T a v := by
  refine Runs.perform hx hi (by cases op <;> first | rfl | cases hop) fun hfits => ?_
  obtain ⟨hasA, hasB, hasC⟩ := Frame.has_of_fits hfits
  refine Frame.mirrors_combine hx.frame ⟨ha, hasA ?_⟩ ⟨hb, hasB ?_⟩ ⟨hc, hasC ?_⟩ hop <;>
    cases op <;> first | rfl | cases hop

theorem runs_convert (hi : x.frame.chunk.code[pc]? = some ⟨op, a, b, c, place⟩)
    (hop : op.converts = true) (ha : 0 ≤ a) (hb : 0 ≤ b) :
    x.Runs T pc (Script.tracing place (op.convert (T b))) (pc + 1) fun v T' =>
      T' = Function.update T a v := by
  refine Runs.perform hx hi (by cases op <;> first | rfl | cases hop) fun hfits => ?_
  obtain ⟨hasA, hasB, -⟩ := Frame.has_of_fits hfits
  refine Frame.mirrors_convert hx.frame ⟨ha, hasA ?_⟩ ⟨hb, hasB ?_⟩ hop <;>
    cases op <;> first | rfl | cases hop

/-! ## Loads -/

theorem runs_loadConst {v : Value} (hi : x.frame.chunk.code[pc]? = some ⟨.loadConst, d, k, c, place⟩)
    (hd : 0 ≤ d) (hk : x.frame.chunk.constantAt? k = some (.value v)) :
    x.Runs T pc (pure v) (pc + 1) fun v T' => T' = Function.update T d v := by
  refine Runs.perform (m := pure v) hx hi rfl fun hfits => ?_
  have hvalue : x.frame.constantValue k = pure v := by
    unfold Frame.constantValue
    rw [Frame.constant_eq hk]
    rfl
  show x.frame.Mirrors T (x.frame.constantValue k >>= x.frame.write d) (pure v) _
  rw [hvalue, pure_bind]
  exact .put hx.frame hd ((Frame.has_of_fits hfits).1 rfl)

theorem runs_loadVoid (hi : x.frame.chunk.code[pc]? = some ⟨.loadVoid, d, b, c, place⟩)
    (hd : 0 ≤ d) :
    x.Runs T pc (pure .void) (pc + 1) fun v T' => T' = Function.update T d v :=
  Runs.perform (m := pure Value.void) hx hi rfl fun hfits =>
    .put hx.frame hd ((Frame.has_of_fits hfits).1 rfl)

theorem runs_loadTruth (t : Bool)
    (hi : x.frame.chunk.code[pc]? = some ⟨if t then .loadTrue else .loadFalse, d, b, c, place⟩)
    (hd : 0 ≤ d) :
    x.Runs T pc (pure (.ofBool t)) (pc + 1) fun v T' => T' = Function.update T d v := by
  refine Runs.perform (m := pure (Value.ofBool t)) hx hi (by cases t <;> rfl) fun hfits => ?_
  have hhas : x.frame.Has d := (Frame.has_of_fits hfits).1 (by cases t <;> rfl)
  cases t <;> exact .put hx.frame hd hhas

theorem runs_loadGlobal (hi : x.frame.chunk.code[pc]? = some ⟨.loadGlobal, d, b, c, place⟩)
    (hd : 0 ≤ d) :
    x.Runs T pc (do return .scope (← get).globalScope) (pc + 1) fun v T' =>
      T' = Function.update T d v := by
  refine Runs.perform (m := do return Value.scope (← get).globalScope) hx hi rfl fun hfits e he => ?_
  exact Frame.Mirrors.put hx.frame hd ((Frame.has_of_fits hfits).1 rfl) e he

theorem runs_copy (hi : x.frame.chunk.code[pc]? = some ⟨.copy, d, r, c, place⟩) (hd : 0 ≤ d)
    (hr : 0 ≤ r) :
    x.Runs T pc (pure (T r)) (pc + 1) fun v T' => T' = Function.update T d v := by
  refine Runs.perform (m := pure (T r)) hx hi rfl fun hfits => ?_
  obtain ⟨hasD, hasR, -⟩ := Frame.has_of_fits hfits
  show x.frame.Mirrors T (x.frame.copy x.call d r) _ _
  simp only [Frame.copy, if_neg (show ¬d < 0 by omega)]
  exact .read hx.frame hr (hasR rfl) (.put hx.frame hd (hasD rfl))

theorem runs_nop (hi : x.frame.chunk.code[pc]? = some ⟨.nop, a, b, c, place⟩) :
    x.Runs T pc (pure ()) (pc + 1) fun _ T' => T' = T :=
  Runs.perform (m := pure ()) hx hi rfl fun _ => .pure rfl

/-! ## Locals -/

theorem runs_readLocal (hi : x.frame.chunk.code[pc]? = some ⟨.copy, d, r, c, place⟩) (hd : 0 ≤ d)
    (hr : r < 0) :
    x.Runs T pc (Script.tracing place (x.frame.read r)) (pc + 1) fun v T' =>
      T' = Function.update T d v := by
  refine Runs.perform hx hi rfl fun hfits => ?_
  obtain ⟨hasD, hasR, -⟩ := Frame.has_of_fits hfits
  show x.frame.Mirrors T (x.frame.copy x.call d r) _ _
  simp only [Frame.copy, if_neg (show ¬d < 0 by omega)]
  exact .store hx.frame (.readLocal hx.frame hr (hasR rfl)) hd (hasD rfl)

theorem runs_assignLocal (hi : x.frame.chunk.code[pc]? = some ⟨.copy, r, d, c, place⟩) (hd : 0 ≤ d)
    (hr : r < 0) :
    x.Runs T pc (Script.tracing place (x.frame.assign x.call r (T d))) (pc + 1) fun _ T' =>
      T' = T := by
  refine Runs.perform hx hi rfl fun hfits => ?_
  obtain ⟨hasR, hasD, -⟩ := Frame.has_of_fits hfits
  refine .read hx.frame hd (hasD rfl) ?_
  rw [if_pos hr]
  refine (Frame.Mirrors.last ?_).imp fun _ _ _ h => h.2
  exact .assign hx.frame hr (hasR rfl) hx.call _

theorem runs_clearLocal (hi : x.frame.chunk.code[pc]? = some ⟨.loadVoid, r, b, c, place⟩)
    (hr : r < 0) :
    x.Runs T pc (Script.tracing place (x.frame.write r .void)) (pc + 1) fun _ T' => T' = T := by
  refine Runs.perform hx hi rfl fun hfits => ?_
  refine (Frame.Mirrors.last ?_).imp fun _ _ _ h => h.2
  exact .writeLocal hx.frame hr ((Frame.has_of_fits hfits).1 rfl) .void

/-- A name of an enclosing function is linked. -/
theorem runs_captureUpvalue {s : String}
    (hi : x.frame.chunk.code[pc]? = some ⟨.captureUpvalue, k, b, c, place⟩)
    (hk : x.frame.chunk.nameAt? k = some s) :
    x.Runs T pc (Script.modifyHeap (·.captureUpvalue x.frame.activation s)) (pc + 1) fun _ T' =>
      T' = T := by
  refine Runs.perform (m := Script.modifyHeap (·.captureUpvalue x.frame.activation s)) hx hi rfl
    fun _ => ?_
  show x.frame.Mirrors T (x.frame.name k >>= fun s =>
    Script.modifyHeap (·.captureUpvalue x.frame.activation s)) _ _
  rw [Frame.name_eq hk, pure_bind]
  refine (Frame.Mirrors.last (.ofCalm ?_)).imp fun _ _ _ h => h.2
  exact .modifyHeap (fun _ _ => Heap.captureUpvalue_graft _ _) fun _ =>
    Heap.keeps_captureUpvalue _ _

/-! ## Members and calls -/

theorem runs_dot (hi : x.frame.chunk.code[pc]? = some ⟨.dot, d, a, b, place⟩) (hd : 0 ≤ d)
    (ha : 0 ≤ a) (hb : 0 ≤ b) :
    x.Runs T pc (Script.tracing place (Script.getMember x.call (T a) (T b))) (pc + 1) fun v T' =>
      T' = Function.update T d v := by
  refine Runs.perform hx hi rfl fun hfits => ?_
  obtain ⟨hasD, hasA, hasB⟩ := Frame.has_of_fits hfits
  refine .read hx.frame ha (hasA rfl) (.read hx.frame hb (hasB rfl) ?_)
  exact .store hx.frame (.ofCalm (Script.calm_getMember hx.call _ _)) hd (hasD rfl)

theorem runs_dotSet (hi : x.frame.chunk.code[pc]? = some ⟨.dotSet, a, b, d, place⟩) (hd : 0 ≤ d)
    (ha : 0 ≤ a) (hb : 0 ≤ b) :
    x.Runs T pc (Script.tracing place (Script.setMember x.call (T a) (T b) (T d))) (pc + 1)
      fun _ T' => T' = T := by
  refine Runs.perform hx hi rfl fun hfits => ?_
  obtain ⟨hasA, hasB, hasD⟩ := Frame.has_of_fits hfits
  refine .read hx.frame ha (hasA rfl) (.read hx.frame hb (hasB rfl) ?_)
  refine .read hx.frame hd (hasD rfl) ?_
  exact (Frame.Mirrors.last (.ofCalm (Script.calm_setMember hx.call _ _ _))).imp fun _ _ _ h => h.2

theorem runs_delete (hi : x.frame.chunk.code[pc]? = some ⟨.delete, a, b, c, place⟩)
    (ha : 0 ≤ a) (hb : 0 ≤ b) :
    x.Runs T pc (Script.tracing place (Script.removeMember (T a) (T b))) (pc + 1) fun _ T' =>
      T' = T := by
  refine Runs.perform hx hi rfl fun hfits => ?_
  obtain ⟨hasA, hasB, -⟩ := Frame.has_of_fits hfits
  refine .read hx.frame ha (hasA rfl) (.read hx.frame hb (hasB rfl) ?_)
  exact (Frame.Mirrors.last (.ofCalm (Script.calm_removeMember _ _))).imp fun _ _ _ h => h.2

theorem runs_call {vs : List Value} (hi : x.frame.chunk.code[pc]? = some ⟨.call, d, b, c, place⟩)
    (hd : 0 ≤ d) (hb : 0 ≤ b) (hc : c = b + vs.length) (hvs : Row T b vs) :
    x.Runs T pc (Script.tracing place (Script.callValue x.call (T d) vs.toArray)) (pc + 1)
      fun v T' => T' = Function.update T d v := by
  refine Runs.perform hx hi rfl fun hfits => ?_
  obtain ⟨hasD, hasB, hasC⟩ := Frame.has_of_fits hfits
  refine .read hx.frame hd (hasD rfl) (.range hx.frame hb (hasB rfl) (hasC rfl) hc hvs ?_)
  exact .store hx.frame (.ofCalm (Script.calm_callValue hx.call _ _)) hd (hasD rfl)

theorem runs_makeArray {vs : List Value}
    (hi : x.frame.chunk.code[pc]? = some ⟨.makeArray, d, b, c, place⟩) (hd : 0 ≤ d) (hb : 0 ≤ b)
    (hc : c = b + vs.length) (hvs : Row T b vs) :
    x.Runs T pc (Script.newArray vs.toArray) (pc + 1) fun v T' => T' = Function.update T d v := by
  refine Runs.perform (m := Script.newArray vs.toArray) hx hi rfl fun hfits => ?_
  obtain ⟨hasD, hasB, hasC⟩ := Frame.has_of_fits hfits
  refine .range hx.frame hb (hasB rfl) (hasC rfl) hc hvs ?_
  exact .store hx.frame (.ofCalm (Script.calm_newArray _)) hd (hasD rfl)

theorem runs_makeDict {vs : List Value}
    (hi : x.frame.chunk.code[pc]? = some ⟨.makeDict, d, b, c, place⟩) (hd : 0 ≤ d) (hb : 0 ≤ b)
    (hc : c = b + vs.length) (hvs : Row T b vs) :
    x.Runs T pc (do Script.newDict (Frame.pairEntries (← Script.getHeap) vs ∅)) (pc + 1) fun v T' =>
      T' = Function.update T d v := by
  refine Runs.perform (m := do Script.newDict (Frame.pairEntries (← Script.getHeap) vs ∅)) hx hi rfl
    fun hfits => ?_
  obtain ⟨hasD, hasB, hasC⟩ := Frame.has_of_fits hfits
  refine .range hx.frame hb (hasB rfl) (hasC rfl) hc hvs (Frame.Mirrors.ofHeap (fun h t => ?_)
    fun h => ?_)
  · rw [Frame.pairEntries_graft]
  · exact .store hx.frame (.ofCalm (Script.calm_newDict _)) hd (hasD rfl)

end Context

/-- The operand of an instance that stands for the name it falls back to. -/
def Chunk.FallsBack (c : Chunk) (k : Int) : Option String → Prop
  | some s => c.nameAt? k = some s
  | none => k = -1

theorem Frame.resolveClass_eq {f : Frame} {k : Int} {s? : Option String}
    (hk : f.chunk.FallsBack k s?) (target : Value) :
    f.resolveClass target k = classOf target s? := by
  rcases s? with _ | s
  · obtain rfl : k = -1 := hk
    cases target <;> rfl
  · have hname : f.chunk.nameAt? k = some s := hk
    have hpos : 0 ≤ k := by
      by_contra hneg
      simp [Chunk.nameAt?, Chunk.constantAt?, hneg] at hname
    have hglobal : (f.name k >>= globalClass) = globalClass s := by rw [name_eq hname, pure_bind]
    cases target <;> simp only [resolveClass, classOf, if_pos hpos, hglobal]

namespace Context

variable {x : Context} {T : Int → Value} {pc : Nat} {a d k : Int} {place : Position}

theorem runs_newObject {s? : Option String} (hx : x.Proper)
    (hi : x.frame.chunk.code[pc]? = some ⟨.newObject, d, a, k, place⟩) (hd : 0 ≤ d) (ha : 0 ≤ a)
    (hk : x.frame.chunk.FallsBack k s?) :
    x.Runs T pc (Script.tracing place (classOf (T a) s?)) (pc + 1) fun v T' =>
      T' = Function.update T d v := by
  refine Runs.perform hx hi rfl fun hfits => ?_
  obtain ⟨hasD, hasA, -⟩ := Frame.has_of_fits hfits
  refine .read hx.frame ha (hasA rfl) ?_
  rw [← Frame.resolveClass_eq hk]
  refine .store hx.frame (.resolveClass _ _ fun hpos => hfits.name k (if_neg ?_)) hd (hasD rfl)
  have hk : 0 ≤ k := hpos
  show ¬k = -1
  omega

end Context

/-! ## Steps -/

namespace StepOp

theorem perform_before (op : StepOp) (call : Invoke) (f : Frame) (a b c : Int) (place : Position) :
    f.perform call ⟨op.before, a, b, c, place⟩ =
      f.stepBefore ⟨op.before, a, b, c, place⟩ op.change := by
  cases op <;> rfl

theorem perform_after (op : StepOp) (call : Invoke) (f : Frame) (a b c : Int) (place : Position) :
    f.perform call ⟨op.after, a, b, c, place⟩ =
      f.stepAfter ⟨op.after, a, b, c, place⟩ op.change := by
  cases op <;> rfl

theorem moves_before (op : StepOp) : op.before.moves = false := by
  cases op <;> rfl

theorem moves_after (op : StepOp) : op.after.moves = false := by
  cases op <;> rfl

variable {f : Frame} {op : StepOp} {pc : Nat} {a b c : Int} {place : Position}

theorem has_before (h : f.chunk.Fits pc ⟨op.before, a, b, c, place⟩) : f.Has a ∧ f.Has b := by
  obtain ⟨ha, hb, -⟩ := Frame.has_of_fits h
  cases op <;> exact ⟨ha rfl, hb rfl⟩

theorem has_after (h : f.chunk.Fits pc ⟨op.after, a, b, c, place⟩) : f.Has a ∧ f.Has b := by
  obtain ⟨ha, hb, -⟩ := Frame.has_of_fits h
  cases op <;> exact ⟨ha rfl, hb rfl⟩

end StepOp

/-- A value that counts as a number is no property, so a local that holds it is simply written. -/
theorem Frame.assign_of_toInt32 {f : Frame} {r : Int} {e : Engine} {old : Value} {n : Int32}
    (hread : f.read r e = .ok old e) (hn : old.toInt32 = .ok n) (call : Invoke) (v : Value) :
    f.assign call r v e = f.write r v e := by
  rw [assign, Script.bind_apply, hread]
  cases old <;> first | rfl | cases hn

namespace Context

variable {x : Context} {T : Int → Value} {pc : Nat} {a c d r t : Int} {place : Position}
  (hx : x.Proper) (op : StepOp)

include hx

/-- A step of a temporary. -/
theorem runs_stepBefore (hi : x.frame.chunk.code[pc]? = some ⟨op.before, t, t, c, place⟩)
    (ht : 0 ≤ t) :
    x.Runs T pc (Script.tracing place (op.next (T t))) (pc + 1) fun v T' =>
      T' = Function.update T t v := by
  refine Runs.perform hx hi op.moves_before fun hfits => ?_
  obtain ⟨hhas, -⟩ := StepOp.has_before hfits
  rw [op.perform_before]
  simp only [Frame.stepBefore, Frame.int, bind_assoc, if_true]
  refine .read hx.frame ht hhas (.both (.toInt32 _) fun n => ?_)
  exact .write hx.frame ht hhas (.pure rfl)

/-- A step of a temporary whose old value goes into another one. -/
theorem runs_stepAfter (hi : x.frame.chunk.code[pc]? = some ⟨op.after, a, t, c, place⟩)
    (ha : 0 ≤ a) (ht : 0 ≤ t) :
    x.Runs T pc (Script.tracing place (op.next (T t))) (pc + 1) fun v T' =>
      T' = Function.update (Function.update T a (T t)) t v := by
  refine Runs.perform hx hi op.moves_after fun hfits => ?_
  obtain ⟨hasA, hasT⟩ := StepOp.has_after hfits
  rw [op.perform_after]
  refine .read hx.frame ht hasT (.both (.toInt32 _) fun n => .write hx.frame ha hasA ?_)
  exact .put hx.frame ht hasT

/-- A step of a local in one instruction: reading it, the new value, and writing it. -/
theorem tracing_step {e : Engine} (hhas : x.frame.Has r) (he : x.frame.Live e) (q : Position)
    (k : Value → Value → Value) :
    (do
      let old ← Script.tracing q (x.frame.read r)
      let v ← Script.tracing place (op.next old)
      Script.tracing place (x.frame.assign x.call r v)
      return k old v) e =
    Script.tracing place (do
      let old ← x.frame.read r
      let n ← Script.ofExcept old.toInt32
      x.frame.write r (.ofInt (op.change n).toInt)
      return k old (.ofInt (op.change n).toInt)) e := by
  have hread := Frame.read_apply hx.frame hhas he
  rcases hn : (x.frame.contents e r).toInt32 with cause | n
  · simp only [Script.bind_apply, Script.tracing, hread, StepOp.next, hn]
    rfl
  · have hassign := Frame.assign_of_toInt32 hread hn x.call (.ofInt (op.change n).toInt)
    have hnext : op.next (x.frame.contents e r) e = .ok (.ofInt (op.change n).toInt) e := by
      rw [StepOp.next, hn]
      rfl
    have hint : Script.ofExcept (.ok n : Except RuntimeFault Int32) e = .ok n e := rfl
    simp only [Script.bind_apply, Script.tracing, hread, hnext, hn, hint, hassign]
    rcases x.frame.write r (.ofInt (op.change n).toInt) e with ⟨_, e'⟩ | ⟨_ | _, e'⟩ <;> rfl

/-- A step of a local, whose new value goes into a register. -/
theorem runs_stepBeforeLocal (hi : x.frame.chunk.code[pc]? = some ⟨op.before, d, r, c, place⟩)
    (hd : 0 ≤ d) (hr : r < 0) (q : Position) :
    x.Runs T pc (do
      let old ← Script.tracing q (x.frame.read r)
      let v ← Script.tracing place (op.next old)
      Script.tracing place (x.frame.assign x.call r v)
      return v) (pc + 1) fun v T' => T' = Function.update T d v := by
  have hhas := StepOp.has_before (hx.frame.wellFormed.fits pc _ hi)
  refine .congr (fun e he => tracing_step hx op hhas.2 he.live q fun _ v => v) ?_
  refine Runs.perform hx hi op.moves_before fun _ => ?_
  rw [op.perform_before]
  simp only [Frame.stepBefore, Frame.int, bind_assoc, if_neg (show ¬d = r by omega)]
  refine .both (.readLocal hx.frame hr hhas.2) fun old => .both (.toInt32 _) fun n => ?_
  exact .both (.writeLocal hx.frame hr hhas.2 _) fun _ => .put hx.frame hd hhas.1

/-- A step of a local, whose old value goes into a register. -/
theorem runs_stepAfterLocal (hi : x.frame.chunk.code[pc]? = some ⟨op.after, d, r, c, place⟩)
    (hd : 0 ≤ d) (hr : r < 0) (q : Position) :
    x.Runs T pc (do
      let old ← Script.tracing q (x.frame.read r)
      let v ← Script.tracing place (op.next old)
      Script.tracing place (x.frame.assign x.call r v)
      return old) (pc + 1) fun v T' => T' = Function.update T d v := by
  have hhas := StepOp.has_after (hx.frame.wellFormed.fits pc _ hi)
  refine .congr (fun e he => tracing_step hx op hhas.2 he.live q fun old _ => old) ?_
  refine Runs.perform hx hi op.moves_after fun _ => ?_
  rw [op.perform_after]
  refine .both (.readLocal hx.frame hr hhas.2) fun old => .both (.toInt32 _) fun n => ?_
  refine .write hx.frame hd hhas.1 ?_
  have hlast : ∀ v, x.frame.Mirrors (Function.update T d old) (x.frame.write r v >>= pure)
      (do x.frame.write r v; return old) fun v _ T' => T' = Function.update T d v :=
    fun v => .both (.writeLocal hx.frame hr hhas.2 v) fun _ => .pure rfl
  simp only [bind_pure] at hlast
  exact hlast _

end Context

end ScriptEngine
