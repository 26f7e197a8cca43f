import ScriptEngine.Proofs.Expression.Instructions

/-!
# Code and meaning of expressions agree

The code of an expression, wherever it stands in a chunk, runs as the expression evaluates, and
leaves the value in its register. It writes no temporary below that register, which is what keeps
the intermediate values of the expressions around it (`Below`).

For an expression that can be assigned to, the code without its last instruction evaluates the
parts: it ends with what the expression refers to in registers (`Operand.Holds`), and the last
instruction reads that.
-/

namespace ScriptEngine

/-! ## Code in a chunk -/

/-- From an index on, a chunk has the code of a draft; it has all constants of the draft. -/
structure Chunk.Covers (F : Chunk) (first : Nat) (c : Draft) : Prop where
  code : ∀ (n : Nat) i, first ≤ n → c.code[n]? = some i → F.code[n]? = some i
  constants : ∀ (n : Nat) k, c.constants[n]? = some k → F.constants[n]? = some k

namespace Chunk.Covers

variable {F : Chunk} {first : Nat} {c c' : Draft}

theorem mono (h : F.Covers first c') (hle : c.Le c') : F.Covers first c :=
  ⟨fun n i hn hi => h.code n i hn (hle.code n i hi), fun n k hk =>
    h.constants n k (hle.constants n k hk)⟩

/-- The same code from a later index on. -/
theorem later (h : F.Covers first c) {n : Nat} (hn : first ≤ n) : F.Covers n c :=
  ⟨fun m i hm hi => h.code m i (hn.trans hm) hi, h.constants⟩

theorem push {i : Instruction} (h : F.Covers first (c.push i)) (hc : first ≤ c.size) :
    F.code[c.size]? = some i :=
  h.code _ _ hc (Draft.code_push i)

theorem emit {place : Position} {op : Op} {a b e : Int}
    (h : F.Covers first (c.emit place op a b e)) (hc : first ≤ c.size) :
    F.code[c.size]? = some ⟨op, a, b, e, place⟩ :=
  h.push hc

theorem constant {k : Constant} (h : F.Covers first (c.intern k)) :
    F.constantAt? (c.index k) = some k := by
  rw [Chunk.constantAt?, if_pos (Int.natCast_nonneg _), Int.toNat_natCast]
  exact h.constants _ _ (Draft.constants_intern k)

theorem name {s : String} (h : F.Covers first (c.intern (.value (.str s)))) :
    F.nameAt? (c.index (.value (.str s))) = some s := by
  rw [Chunk.nameAt?, h.constant]

/-- The fallback of an instance is a constant. -/
theorem fallsBack {cls : Expr} (path : List PathStep)
    (h : F.Covers first (c.internName cls.className?)) :
    F.FallsBack (c.nameIndex (fallback? cls path)) (fallback? cls path) := by
  unfold fallback?
  split
  · rcases hname : cls.className? with _ | s
    · rfl
    · rw [hname] at h
      exact h.name
  · rfl

end Chunk.Covers

/-! ## Temporaries that are kept -/

/-- The temporaries below a register are the same. -/
def Below (d : Int) (T T' : Int → Value) : Prop :=
  ∀ r, r < d → T' r = T r

theorem Below.refl (d : Int) (T : Int → Value) : Below d T T :=
  fun _ _ => rfl

theorem Below.trans {d d' : Int} {T T₁ T₂ : Int → Value} (h : Below d T T₁) (h' : Below d' T₁ T₂)
    (hd : d ≤ d') : Below d T T₂ :=
  fun r hr => (h' r (by omega)).trans (h r hr)

theorem Below.update {d r : Int} {T T' : Int → Value} (h : Below d T T') (hr : d ≤ r) (v : Value) :
    Below d T (Function.update T' r v) := by
  intro q hq
  rw [Function.update_of_ne (by omega)]
  exact h q hq

/-- The first two registers hold the scope and the receiver. -/
structure Context.Agrees (x : Context) (T : Int → Value) : Prop where
  scope : T 0 = x.scope
  receiver : T 1 = x.receiver

theorem Context.Agrees.below {x : Context} {d : Int} {T T' : Int → Value} (h : x.Agrees T)
    (hT : Below d T T') (hd : 2 ≤ d) : x.Agrees T' :=
  ⟨(hT 0 (by omega)).trans h.scope, (hT 1 (by omega)).trans h.receiver⟩

/-! ## What is shown of expressions -/

/-- The registers of an operand hold a reference. -/
def Operand.Holds (place : Position) (T : Int → Value) : Operand → Reference → Prop
  | .slot register _, ref => ref = .slot place register
  | .member receiver key _, ref => ref = .member place (T receiver) (T key)
  | _, _ => False

/-- The code of an expression computes its value. -/
def Expr.Right (x : Context) (e : Expr) : Prop :=
  ∀ d c T, 2 ≤ d → x.Agrees T → x.frame.chunk.Covers c.size (e.gen x.names d c) →
    e.fault? = none →
    x.Runs T c.size (e.value x) (e.gen x.names d c).size fun v T' => T' d = v ∧ Below d T T'

/-- The code of a target, without its load, finds what it refers to. -/
def Expr.Found (x : Context) (e : Expr) : Prop :=
  e.isTarget = true → ∀ d c T n, 2 ≤ d → x.Agrees T →
    x.frame.chunk.Covers c.size (e.gen x.names d c).pop → e.fault? = none →
    x.Runs T c.size (e.refer x) ((e.gen x.names d c).size - 1) fun ref T' =>
      (e.operand x.names d n).Holds e.place T' ref ∧ Below d T T'

/-- The code of items computes their values, in consecutive registers. -/
def Items.Right (x : Context) (items : Items) : Prop :=
  ∀ register c T, 2 ≤ register → x.Agrees T →
    x.frame.chunk.Covers c.size (items.gen x.names register c) → items.fault? = none →
    x.Runs T c.size (items.values x) (items.gen x.names register c).size fun vs T' =>
      Row T' register vs ∧ (vs.length : Int) = items.count ∧ Below register T T'

def DictKey.Right (x : Context) (key : DictKey) : Prop :=
  ∀ register c T, 2 ≤ register → x.Agrees T →
    x.frame.chunk.Covers c.size (key.gen x.names register c) → key.fault? = none →
    x.Runs T c.size (key.value x) (key.gen x.names register c).size fun v T' =>
      T' register = v ∧ Below register T T'

/-- The code of entries computes their keys and values, in consecutive registers. -/
def Entries.Right (x : Context) (entries : Entries) : Prop :=
  ∀ register c T, 2 ≤ register → x.Agrees T →
    x.frame.chunk.Covers c.size (entries.gen x.names register c) → entries.fault? = none →
    x.Runs T c.size (entries.values x) (entries.gen x.names register c).size fun vs T' =>
      Row T' register vs ∧ (vs.length : Int) = entries.count ∧ Below register T T'

/-- The registers of a target: a local, or two temporaries near the destination. -/
theorem Expr.operand_cases {names : Names} {e : Expr} (h : e.isTarget = true)
    (hlocals : ∀ s r, names.slot? s = some r → r < 0) {d : Int} (hd : 2 ≤ d) (n : Nat) :
    (∃ r, r < 0 ∧ e.operand names d n = .slot r n) ∨
      ∃ a b, 0 ≤ a ∧ a ≤ d ∧ 0 ≤ b ∧ b ≤ d + 1 ∧ e.operand names d n = .member a b n := by
  fun_induction operand names d n e with
  | case1 place s register hs => exact .inl ⟨register, hlocals s register hs, rfl⟩
  | case2 place s hs => exact .inr ⟨0, d, by omega, by omega, by omega, by omega, rfl⟩
  | case3 | case4 => exact .inr ⟨d, d + 1, by omega, by omega, by omega, by omega, rfl⟩
  | case5 _ e _ ih => exact ih h
  | case6 l _ r ih => exact ih h
  | case7 e => simp_all [isTarget]

/-! ## Literals and names -/

/-- A register that was written last. -/
theorem Below.written {d : Int} {T T' : Int → Value} (h : Below d T T') (v : Value) :
    Function.update T' d v d = v ∧ Below d T (Function.update T' d v) :=
  ⟨Function.update_self .., h.update (le_refl d) v⟩

section

variable {x : Context} (hx : x.Proper) {T : Int → Value} {c : Draft} {first : Nat} {d : Int}
  {place : Position}

include hx

theorem runs_load {v : Value} (h : x.frame.chunk.Covers first (c.load place d v))
    (hfirst : first ≤ c.size) (hd : 0 ≤ d) :
    x.Runs T c.size (pure v) (c.load place d v).size fun v T' => T' = Function.update T d v := by
  have hcode := h.emit (by rwa [Draft.size_intern])
  have hconstant := (h.mono ((Draft.Le.refl _).emit ..)).constant
  rw [Draft.size_intern] at hcode
  rw [Draft.size_load]
  exact x.runs_loadConst hx hcode hd hconstant

theorem right_load {v : Value} (hd : 2 ≤ d) (h : x.frame.chunk.Covers c.size (c.load place d v)) :
    x.Runs T c.size (pure v) (c.load place d v).size fun v T' => T' d = v ∧ Below d T T' := by
  refine (runs_load hx h (le_refl _) (by omega)).imp fun v T' hT' => ?_
  rw [hT']
  exact (Below.refl d T).written v

theorem Expr.right_number (place : Position) (n : Number) : (number place n).Right x := by
  intro d c T hd _ hcov _
  simp only [Expr.gen] at hcov ⊢
  exact right_load hx hd hcov

theorem Expr.right_text (place : Position) (s : String) : (text place s).Right x := by
  intro d c T hd _ hcov _
  simp only [Expr.gen] at hcov ⊢
  exact right_load hx hd hcov

theorem Expr.right_truth (place : Position) (b : Bool) : (truth place b).Right x := by
  intro d c T hd _ hcov _
  simp only [Expr.gen, Draft.size_emit] at hcov ⊢
  refine (x.runs_loadTruth hx b (hcov.emit (le_refl _)) (by omega)).imp fun v T' hT' => ?_
  rw [hT']
  exact (Below.refl d T).written v

theorem Expr.right_this (place : Position) : (this place).Right x := by
  intro d c T hd hagrees hcov _
  simp only [Expr.gen, Draft.size_emit] at hcov ⊢
  rw [show (this place).value x = pure (T 1) by rw [hagrees.receiver]; rfl]
  refine (x.runs_copy hx (hcov.emit (le_refl _)) (by omega) (by omega)).imp fun v T' hT' => ?_
  rw [hT']
  exact (Below.refl d T).written v

theorem Expr.right_global (place : Position) : (global place).Right x := by
  intro d c T hd _ hcov _
  simp only [Expr.gen, Draft.size_emit] at hcov ⊢
  refine (x.runs_loadGlobal hx (hcov.emit (le_refl _)) (by omega)).imp fun v T' hT' => ?_
  rw [hT']
  exact (Below.refl d T).written v

theorem Expr.found_name (place : Position) (s : String) : (name place s).Found x := by
  intro _ d c T n hd hagrees hcov _
  simp only [Expr.gen, Expr.operand, Expr.refer, Expr.place] at hcov ⊢
  rcases hs : x.names.slot? s with _ | register <;> simp only [hs] at hcov ⊢
  · have hload : ∀ c' : Draft, x.frame.chunk.Covers c.size
        (c'.push ⟨.loadConst, d, c.index (.value (.str s)), 0, place⟩) → c.size ≤ c'.size →
        (c.intern (.value (.str s))).Le c' →
        x.Runs T c'.size (pure (Reference.member place x.scope (.str s))) (c'.size + 1)
          fun ref T' => Operand.Holds place T' (.member 0 d n) ref ∧ Below d T T' := by
      intro c' hcov hsize hle
      have hname := (hcov.mono (hle.push _)).constant
      refine (x.runs_loadConst hx (hcov.push hsize) (by omega) hname).silent fun T' hT' => .pure ?_
      subst hT'
      refine ⟨?_, ((Below.refl d T).written _).2⟩
      simp only [Operand.Holds, Function.update_self, Function.update_of_ne (show (0 : Int) ≠ d by omega),
        hagrees.scope]
    rcases hlinked : x.names.linked s <;>
      simp only [hlinked, if_true, Bool.false_eq_true, if_false, Draft.emit, Draft.pop_push,
        Draft.size_push, Draft.size_intern, Nat.add_sub_cancel] at hcov ⊢
    · have hrun := hload _ hcov (by rw [Draft.size_intern]) (.refl _)
      rwa [Draft.size_intern] at hrun
    · have hcov' := hcov.mono ((Draft.Le.refl _).push _)
      have hcapture := hcov'.push (by rw [Draft.size_intern])
      have hname := (hcov'.mono ((Draft.Le.refl _).push _)).name
      rw [Draft.size_intern] at hcapture
      refine (x.runs_captureUpvalue hx hcapture hname).bind fun _ T₁ hT₁ => ?_
      subst hT₁
      have hrun := hload _ hcov (by rw [Draft.size_push, Draft.size_intern]; omega)
        ((Draft.Le.refl _).push _)
      rwa [Draft.size_push, Draft.size_intern] at hrun
  · simp only [Draft.emit, Draft.pop_push, Draft.size_push, Nat.add_sub_cancel] at hcov ⊢
    exact .pure ⟨rfl, .refl d T⟩

end

/-! ## Targets -/

section

variable {x : Context} (hx : x.Proper)

include hx

/-- What an operand refers to is read by its load. -/
theorem runs_fetch {T : Int → Value} {pc n : Nat} {d : Int} {place : Position} {o : Operand}
    {ref : Reference} (hd : 2 ≤ d)
    (ho : (∃ r, r < 0 ∧ o = .slot r n) ∨
      ∃ a b, 0 ≤ a ∧ a ≤ d ∧ 0 ≤ b ∧ b ≤ d + 1 ∧ o = .member a b n)
    (hcode : x.frame.chunk.code[pc]? = some (o.fetch d place)) (href : o.Holds place T ref) :
    x.Runs T pc (ref.get x) (pc + 1) fun v T' => T' = Function.update T d v := by
  rcases ho with ⟨r, hr, rfl⟩ | ⟨a, b, ha, -, hb, -, rfl⟩
  · obtain rfl : ref = .slot place r := href
    exact x.runs_readLocal hx hcode (by omega) hr
  · obtain rfl : ref = .member place (T a) (T b) := href
    exact x.runs_dot hx hcode (by omega) ha hb

theorem Expr.right_of_found {e : Expr} (ht : e.isTarget = true) (h : e.Found x) : e.Right x := by
  intro d c T hd hagrees hcov hfault
  have hgen := e.gen_target x.names ht d c 0
  have hsize := (e.le_gen x.names d c).2
  have hpop := (e.le_pop_gen x.names d c).size
  rw [Draft.size_pop] at hpop
  have hcov' : x.frame.chunk.Covers c.size (e.gen x.names d c).pop := by
    rw [hgen] at hcov
    exact hcov.mono ((Draft.Le.refl _).push _)
  have hcode : x.frame.chunk.code[(e.gen x.names d c).size - 1]? =
      some ((e.operand x.names d 0).fetch d e.place) := by
    rw [hgen] at hcov
    have hpush := hcov.push (by rwa [Draft.size_pop])
    rwa [Draft.size_pop] at hpush
  refine (h ht d c T 0 hd hagrees hcov' hfault).bind fun ref T₁ ⟨href, hbelow⟩ => ?_
  have hload := runs_fetch hx hd (Expr.operand_cases ht hx.locals hd 0) hcode href
  rw [Nat.sub_add_cancel (by omega)] at hload
  refine hload.imp fun v T' hT' => ?_
  rw [hT']
  exact hbelow.written v

end

section

variable {x : Context} {e l r : Expr}

theorem Expr.right_paren (h : e.Right x) (opening closing : Position) :
    (paren opening e closing).Right x := by
  intro d c T hd hagrees hcov hfault
  simp only [Expr.gen, Expr.value_paren, Expr.fault?] at hcov hfault ⊢
  exact h d c T hd hagrees hcov hfault

theorem Expr.found_paren (h : e.Found x) (opening closing : Position) :
    (paren opening e closing).Found x := by
  intro ht d c T n hd hagrees hcov hfault
  simp only [Expr.isTarget, Expr.gen, Expr.refer, Expr.fault?, Expr.operand, Expr.place] at *
  exact h ht d c T n hd hagrees hcov hfault

theorem Expr.right_comma (hl : l.Right x) (hr : r.Right x) (place : Position) :
    (comma l place r).Right x := by
  intro d c T hd hagrees hcov hfault
  simp only [Expr.gen, Expr.value_comma, Expr.fault?, Option.or_eq_none_iff] at hcov hfault ⊢
  have hle := r.le_gen x.names d (l.gen x.names d c)
  refine (hl d c T hd hagrees (hcov.mono hle.1) hfault.1).bind fun _ T₁ ⟨_, hbelow⟩ => ?_
  have hsize := (l.le_gen x.names d c).2.le
  refine (hr d _ T₁ hd (hagrees.below hbelow hd) (hcov.later hsize) hfault.2).imp
    fun v T' ⟨hv, hbelow'⟩ => ⟨hv, hbelow.trans hbelow' (le_refl d)⟩

theorem Expr.found_comma (hl : l.Right x) (hr : r.Found x) (place : Position) :
    (comma l place r).Found x := by
  intro ht d c T n hd hagrees hcov hfault
  simp only [Expr.isTarget, Expr.gen, Expr.refer_comma, Expr.fault?, Option.or_eq_none_iff,
    Expr.operand, Expr.place] at *
  have hle := r.le_pop_gen x.names d (l.gen x.names d c)
  refine (hl d c T hd hagrees (hcov.mono hle) hfault.1).bind fun _ T₁ ⟨_, hbelow⟩ => ?_
  have hsize := (l.le_gen x.names d c).2.le
  refine (hr ht d _ T₁ n hd (hagrees.below hbelow hd) (hcov.later hsize) hfault.2).imp
    fun ref T' ⟨href, hbelow'⟩ => ⟨href, hbelow.trans hbelow' (le_refl d)⟩

theorem Expr.found_index {key : Expr} (h : e.Right x) (hk : key.Right x)
    (opening closing : Position) : (index e opening key closing).Found x := by
  intro _ d c T n hd hagrees hcov hfault
  simp only [Expr.gen, Expr.refer_index, Expr.fault?, Option.or_eq_none_iff, Expr.operand,
    Expr.place, Draft.emit, Draft.pop_push, Draft.size_push, Nat.add_sub_cancel] at hcov hfault ⊢
  have hsize := (e.le_gen x.names d c).2.le
  have hle := key.le_gen x.names (d + 1) (e.gen x.names d c)
  refine (h d c T hd hagrees (hcov.mono hle.1) hfault.1).bind fun v T₁ howner => ?_
  obtain ⟨hv, hbelow⟩ := howner
  refine (hk (d + 1) _ T₁ (by omega) (hagrees.below hbelow hd) (hcov.later hsize) hfault.2).bind
    fun k T₂ hread => .pure ?_
  obtain ⟨hkey, hbelow'⟩ := hread
  refine ⟨?_, hbelow.trans hbelow' (by omega)⟩
  simp only [Operand.Holds, hkey, hbelow' d (by omega), hv]

variable (hx : x.Proper)

include hx

theorem Expr.found_dot (h : e.Right x) (place behind : Position) (s : String) :
    (dot e place behind s).Found x := by
  intro _ d c T n hd hagrees hcov hfault
  simp only [Expr.gen, Expr.refer_dot, Expr.fault?, Expr.operand, Expr.place, Draft.select,
    Draft.emit, Draft.pop_push, Draft.size_push, Draft.size_load, Nat.add_sub_cancel] at hcov hfault ⊢
  have hsize := (e.le_gen x.names d c).2.le
  refine (h d c T hd hagrees (hcov.mono ((Draft.Le.refl _).load ..)) hfault).bind
    fun v T₁ howner => ?_
  obtain ⟨hv, hbelow⟩ := howner
  have hload := runs_load (T := T₁) hx hcov hsize (by omega)
  rw [Draft.size_load] at hload
  refine hload.silent fun T₂ hT₂ => .pure ?_
  subst hT₂
  refine ⟨?_, hbelow.update (by omega) _⟩
  simp only [Operand.Holds, Function.update_self,
    Function.update_of_ne (show d ≠ d + 1 by omega), hv]

/-! ## Operators -/

theorem Expr.right_unary (h : e.Right x) (op : UnaryOp) (place : Position) :
    (unary op place e).Right x := by
  intro d c T hd hagrees hcov hfault
  simp only [Expr.gen, Expr.value_unary, Expr.fault?, Draft.size_emit] at hcov hfault ⊢
  have hsize := (e.le_gen x.names d c).2.le
  refine (h d c T hd hagrees (hcov.mono ((Draft.Le.refl _).emit ..)) hfault).bind
    fun v T₁ ⟨hv, hbelow⟩ => ?_
  subst hv
  refine (x.runs_convert hx (hcov.emit hsize) op.converts (by omega) (by omega)).imp
    fun w T' hT' => ?_
  rw [hT']
  exact hbelow.written w

theorem Expr.right_cast (h : e.Right x) (opening : Position) (word : Conversion)
    (place closing : Position) : (cast opening word place closing e).Right x := by
  intro d c T hd hagrees hcov hfault
  simp only [Expr.gen, Expr.value_cast, Expr.fault?, Draft.size_emit] at hcov hfault ⊢
  have hsize := (e.le_gen x.names d c).2.le
  refine (h d c T hd hagrees (hcov.mono ((Draft.Le.refl _).emit ..)) hfault).bind
    fun v T₁ ⟨hv, hbelow⟩ => ?_
  subst hv
  refine (x.runs_convert hx (hcov.emit hsize) word.converts (by omega) (by omega)).imp
    fun w T' hT' => ?_
  rw [hT']
  exact hbelow.written w

theorem Expr.right_binary (hl : l.Right x) (hr : r.Right x) (op : BinaryOp) (place : Position) :
    (binary l op place r).Right x := by
  intro d c T hd hagrees hcov hfault
  simp only [Expr.gen, Expr.value_binary, Expr.fault?, Option.or_eq_none_iff, Draft.size_emit]
    at hcov hfault ⊢
  have hle := r.le_gen x.names (d + 1) (l.gen x.names d c)
  have hsize := (l.le_gen x.names d c).2.le
  refine (hl d c T hd hagrees (hcov.mono (hle.1.emit ..)) hfault.1).bind
    fun v T₁ ⟨hv, hbelow⟩ => ?_
  refine (hr (d + 1) _ T₁ (by omega) (hagrees.below hbelow hd)
    ((hcov.mono ((Draft.Le.refl _).emit ..)).later hsize) hfault.2).bind
    fun w T₂ ⟨hw, hbelow'⟩ => ?_
  obtain rfl : T₂ d = v := (hbelow' d (by omega)).trans hv
  subst hw
  refine (x.runs_combine hx (hcov.emit (hsize.trans hle.2.le)) op.combines (by omega) (by omega)
    (by omega)).imp fun u T' hT' => ?_
  rw [hT']
  exact (hbelow.trans hbelow' (by omega)).written u

end

/-! ## Choices -/

section

variable {x : Context} (hx : x.Proper)

include hx

theorem Expr.right_ternary {e a b : Expr} (he : e.Right x) (ha : a.Right x) (hb : b.Right x)
    (question colon : Position) : (ternary e question a colon b).Right x := by
  intro d c T hd hagrees hcov hfault
  obtain ⟨test, first, front, skip, exit, htest, hfirst, hfront, hgen, hskip, hexit⟩ :=
    gen_ternary x.names e a b question colon d c
  simp only [Expr.fault?, Option.or_eq_none_iff] at hfault
  rw [hgen] at hcov ⊢
  rw [Expr.value_ternary]
  have hesize := (e.le_gen x.names d c).2
  have htsize : test.size = (e.gen x.names d c).size + 1 := by rw [htest, Draft.size_emit]
  have hale := a.le_gen x.names d test
  rw [← hfirst] at hale
  have hfsize : front.size = first.size + 1 := by rw [hfront, Draft.size_emit]
  have hcovfront : x.frame.chunk.Covers c.size front := hcov.mono (b.le_gen x.names d front).1
  have hcovfirst : x.frame.chunk.Covers c.size first :=
    hcovfront.mono (hfront ▸ (Draft.Le.refl first).emit ..)
  have hcovtest : x.frame.chunk.Covers c.size test := hcovfirst.mono hale.1
  refine (he d c T hd hagrees (hcovtest.mono (htest ▸ (Draft.Le.refl _).emit ..)) hfault.1).bind
    fun v T₁ ⟨hv, hbelow⟩ => ?_
  have hagrees₁ := hagrees.below hbelow hd
  have hjump : ∀ s, x.frame.Sits s → x.Goes T₁ (e.gen x.names d c).size s T₁
      (if (T₁ d).truthy = false then skip else (e.gen x.names d c).size + 1) s := fun s hs =>
    Context.goes_jumpIf hx (.inl ⟨rfl, rfl⟩) ((htest ▸ hcovtest).emit hesize.le) (by omega) hs
  rw [hv, ← htsize] at hjump
  rcases htruth : v.truthy
  · simp only [htruth, if_true, Bool.false_eq_true, if_false, hskip] at hjump ⊢
    refine .led hjump ((hb d front T₁ hd hagrees₁ (hcov.later (by omega)) hfault.2.2).imp ?_)
    exact fun w T' ⟨hw, hbelow'⟩ => ⟨hw, hbelow.trans hbelow' (le_refl d)⟩
  · simp only [htruth, if_true, Bool.true_eq_false, if_false] at hjump ⊢
    have hrun := ha d test T₁ hd hagrees₁ (hfirst ▸ hcovfirst.later (by omega)) hfault.2.1
    rw [← hfirst] at hrun
    refine .led hjump (hrun.followed fun w T' ⟨hw, hbelow'⟩ => ?_)
    have hout : ∀ s, x.frame.Sits s → x.Goes T' first.size s T' exit s :=
      fun s _ => Context.goes_jump ((hfront ▸ hcovfront).emit (by omega))
    rw [hexit] at hout
    exact .led hout (.pure ⟨hw, hbelow.trans hbelow' (le_refl d)⟩)

theorem Expr.right_logic {l r : Expr} (hl : l.Right x) (hr : r.Right x) (op : LogicOp)
    (place : Position) : (logic l op place r).Right x := by
  intro d c T hd hagrees hcov hfault
  obtain ⟨test, right, both, out, skip, exit, htest, hright, hboth, hout, hgen, hskip, hexit⟩ :=
    gen_logic x.names l r op place d c
  simp only [Expr.fault?, Option.or_eq_none_iff] at hfault
  rw [hgen] at hcov ⊢
  rw [Expr.value_logic, Draft.size_emit]
  have hlsize := (l.le_gen x.names d c).2
  have htsize : test.size = (l.gen x.names d c).size + 1 := by rw [htest, Draft.size_emit]
  have hrle := r.le_gen x.names (d + 1) test
  rw [← hright] at hrle
  have hbsize : both.size = right.size + 1 := by rw [hboth, Draft.size_emit]
  have hosize : out.size = both.size + 1 := by rw [hout, Draft.size_emit]
  have hcovout : x.frame.chunk.Covers c.size out := hcov.mono ((Draft.Le.refl _).emit ..)
  have hcovboth : x.frame.chunk.Covers c.size both :=
    hcovout.mono (hout ▸ (Draft.Le.refl both).emit ..)
  have hcovright : x.frame.chunk.Covers c.size right :=
    hcovboth.mono (hboth ▸ (Draft.Le.refl right).emit ..)
  have hcovtest : x.frame.chunk.Covers c.size test := hcovright.mono hrle.1
  refine (hl d c T hd hagrees (hcovtest.mono (htest ▸ (Draft.Le.refl _).emit ..)) hfault.1).bind
    fun v T₁ ⟨hv, hbelow⟩ => ?_
  have hjump : ∀ s, x.frame.Sits s → x.Goes T₁ (l.gen x.names d c).size s T₁
      (if (T₁ d).truthy = op.decisive then skip else (l.gen x.names d c).size + 1) s :=
    fun s hs => Context.goes_jumpIf hx (by cases op <;> simp [LogicOp.leave, LogicOp.decisive])
      ((htest ▸ hcovtest).emit hlsize.le) (by omega) hs
  rw [hv, ← htsize] at hjump
  by_cases hdecides : v.truthy = op.decisive
  · simp only [if_pos hdecides, hskip] at hjump ⊢
    have hload := hcov.emit (by omega)
    rw [show op.decided = if op.decisive then .loadTrue else .loadFalse by cases op <;> rfl] at hload
    refine .led hjump ((x.runs_loadTruth hx op.decisive hload (by omega)).imp fun w T' hT' => ?_)
    rw [hT']
    exact hbelow.written w
  · simp only [if_neg hdecides] at hjump ⊢
    have hrun := hr (d + 1) test T₁ (by omega) (hagrees.below hbelow hd)
      (hright ▸ hcovright.later (by omega)) hfault.2
    rw [← hright] at hrun
    refine .led hjump (hrun.bind fun w T₂ ⟨hw, hbelow'⟩ => ?_)
    have hleft : T₂ d = v := (hbelow' d (by omega)).trans hv
    -- The left side did not decide, so the operator gives the truth of the right one.
    have hresult : Script.tracing place (op.op.combine (T₂ d) (T₂ (d + 1))) =
        pure (.ofBool w.truthy) := by
      rw [hleft, hw]
      cases op
      · rw [LogicOp.op, Op.combine, show v.truthy = true by simpa [LogicOp.decisive] using hdecides,
          Bool.true_and]
        rfl
      · rw [LogicOp.op, Op.combine, show v.truthy = false by simpa [LogicOp.decisive] using hdecides,
          Bool.false_or]
        rfl
    have hcombine := x.runs_combine (T := T₂) hx ((hboth ▸ hcovboth).emit (by omega)) op.combines
      (show 0 ≤ d by omega) (show 0 ≤ d by omega) (show 0 ≤ d + 1 by omega)
    rw [hresult, ← hbsize] at hcombine
    refine hcombine.followed fun u T' hT' => ?_
    have hjumpout : ∀ s, x.frame.Sits s → x.Goes T' both.size s T' exit s := fun s _ =>
      Context.goes_jump ((hout ▸ hcovout).emit (by omega))
    rw [hexit] at hjumpout
    subst hT'
    exact .led hjumpout (.pure ((hbelow.trans hbelow' (by omega)).written u))

end

/-! ## Lists -/

section

variable {x : Context} {e : Expr}

theorem Items.right_done : Items.done.Right x := by
  intro register c T _ _ _ _
  simp only [Items.gen, Items.values, Items.count]
  exact .pure ⟨trivial, rfl, .refl register T⟩

theorem Items.right_last (h : e.Right x) : (last e).Right x := by
  intro register c T hr hagrees hcov hfault
  simp only [Items.gen, Items.values_last, Items.fault?, Items.count] at hcov hfault ⊢
  refine (h register c T hr hagrees hcov hfault).bind fun v T₁ ⟨hv, hbelow⟩ => .pure ?_
  exact ⟨⟨hv, trivial⟩, rfl, hbelow⟩

theorem Items.right_more {items : Items} (h : e.Right x) (hitems : items.Right x)
    (comma : Position) : (more e comma items).Right x := by
  intro register c T hr hagrees hcov hfault
  simp only [Items.gen, Items.values_more, Items.fault?, Option.or_eq_none_iff, Items.count]
    at hcov hfault ⊢
  have hle := items.le_gen x.names (register + 1) (e.gen x.names register c)
  have hsize := (e.le_gen x.names register c).2.le
  refine (h register c T hr hagrees (hcov.mono hle) hfault.1).bind fun v T₁ ⟨hv, hbelow⟩ => ?_
  refine (hitems (register + 1) _ T₁ (by omega) (hagrees.below hbelow hr) (hcov.later hsize)
    hfault.2).bind fun vs T₂ ⟨hvs, hlen, hbelow'⟩ => .pure ?_
  refine ⟨⟨(hbelow' register (by omega)).trans hv, hvs⟩, ?_, hbelow.trans hbelow' (by omega)⟩
  simp only [List.length_cons]
  omega

theorem DictKey.right_computed (h : e.Right x) (separator : Mark) (place : Position) :
    (computed e separator place).Right x := by
  intro register c T hr hagrees hcov hfault
  simp only [DictKey.gen, DictKey.fault?] at hcov hfault
  simp only [DictKey.gen, DictKey.value]
  exact h register c T hr hagrees hcov hfault

theorem Entries.right_done : Entries.done.Right x := by
  intro register c T _ _ _ _
  simp only [Entries.gen, Entries.values, Entries.count]
  exact .pure ⟨trivial, rfl, .refl register T⟩

theorem Entries.right_last {key : DictKey} (hkey : key.Right x) (h : e.Right x) :
    (last key e).Right x := by
  intro register c T hr hagrees hcov hfault
  simp only [Entries.gen, Entries.values_last, Entries.fault?, Option.or_eq_none_iff, Entries.count]
    at hcov hfault ⊢
  have hle := e.le_gen x.names (register + 1) (key.gen x.names register c)
  have hsize := (key.le_gen x.names register c).size
  refine (hkey register c T hr hagrees (hcov.mono hle.1) hfault.1).bind
    fun k T₁ ⟨hk, hbelow⟩ => ?_
  refine (h (register + 1) _ T₁ (by omega) (hagrees.below hbelow hr) (hcov.later hsize)
    hfault.2).bind fun v T₂ ⟨hv, hbelow'⟩ => .pure ?_
  exact ⟨⟨(hbelow' register (by omega)).trans hk, hv, trivial⟩, rfl, hbelow.trans hbelow' (by omega)⟩

theorem Entries.right_more {key : DictKey} {entries : Entries} (hkey : key.Right x)
    (h : e.Right x) (hentries : entries.Right x) (comma : Position) :
    (more key e comma entries).Right x := by
  intro register c T hr hagrees hcov hfault
  simp only [Entries.gen, Entries.values_more, Entries.fault?, Option.or_eq_none_iff, Entries.count]
    at hcov hfault ⊢
  have hele := e.le_gen x.names (register + 1) (key.gen x.names register c)
  have hle := entries.le_gen x.names (register + 2)
    (e.gen x.names (register + 1) (key.gen x.names register c))
  have hsize := (key.le_gen x.names register c).size
  refine (hkey register c T hr hagrees (hcov.mono (hele.1.trans hle)) hfault.1).bind
    fun k T₁ ⟨hk, hbelow⟩ => ?_
  have hagrees₁ := hagrees.below hbelow hr
  refine (h (register + 1) _ T₁ (by omega) hagrees₁ ((hcov.mono hle).later hsize)
    hfault.2.1).bind fun v T₂ ⟨hv, hbelow'⟩ => ?_
  have hboth := hbelow.trans hbelow' (show register ≤ register + 1 by omega)
  refine (hentries (register + 2) _ T₂ (by omega) (hagrees.below hboth hr)
    (hcov.later (hsize.trans hele.2.le)) hfault.2.2).bind
    fun vs T₃ ⟨hvs, hlen, hbelow''⟩ => .pure ?_
  have hkey₃ : T₃ register = k :=
    ((hbelow'' register (by omega)).trans (hbelow' register (by omega))).trans hk
  have hvalue₃ : T₃ (register + 1) = v := (hbelow'' (register + 1) (by omega)).trans hv
  rw [show register + 2 = register + 1 + 1 by omega] at hvs
  refine ⟨⟨hkey₃, hvalue₃, hvs⟩, ?_, hboth.trans hbelow'' (by omega)⟩
  simp only [List.length_cons]
  omega

variable (hx : x.Proper)

include hx

theorem Items.right_hole {items : Items} (hitems : items.Right x) (comma : Position) :
    (hole comma items).Right x := by
  intro register c T hr hagrees hcov hfault
  simp only [Items.gen, Items.values, Items.fault?, Items.count] at hcov hfault ⊢
  have hle := items.le_gen x.names (register + 1) (c.emit comma .loadVoid register)
  refine (x.runs_loadVoid hx ((hcov.mono hle).emit (le_refl _)) (by omega)).silent fun T₁ hT₁ => ?_
  have hbelow := (Below.refl register T).written .void
  rw [← hT₁] at hbelow
  have hrest := hitems (register + 1) _ T₁ (by omega) (hagrees.below hbelow.2 hr)
    (hcov.later (by rw [Draft.size_emit]; omega)) hfault
  rw [Draft.size_emit] at hrest
  refine hrest.bind fun vs T₂ ⟨hvs, hlen, hbelow'⟩ => .pure ?_
  refine ⟨⟨(hbelow' register (by omega)).trans hbelow.1, hvs⟩, ?_,
    hbelow.2.trans hbelow' (by omega)⟩
  simp only [List.length_cons]
  omega

theorem DictKey.right_label (place : Position) (s : String) (colon : Position) :
    (label place s colon).Right x := by
  intro register c T hr _ hcov _
  simp only [DictKey.gen] at hcov
  simp only [DictKey.gen, DictKey.value]
  exact right_load hx hr hcov

theorem Expr.right_array {items : Items} (h : items.Right x) (opening closing : Position) :
    (array opening items closing).Right x := by
  intro d c T hd hagrees hcov hfault
  simp only [Expr.gen, Expr.value_array, Expr.fault?, Draft.size_emit] at hcov hfault ⊢
  have hsize := (items.le_gen x.names (d + 1) c).size
  refine (h (d + 1) c T (by omega) hagrees (hcov.mono ((Draft.Le.refl _).emit ..)) hfault).bind
    fun vs T₁ ⟨hvs, hlen, hbelow⟩ => ?_
  refine (x.runs_makeArray hx (hcov.emit hsize) (by omega) (by omega) (by omega) hvs).imp
    fun v T' hT' => ?_
  rw [hT']
  exact ((Below.refl d T).trans hbelow (by omega)).written v

theorem Expr.right_dict {entries : Entries} (h : entries.Right x) (opening closing : Position) :
    (dict opening entries closing).Right x := by
  intro d c T hd hagrees hcov hfault
  simp only [Expr.gen, Expr.value_dict, Expr.fault?, Draft.size_emit] at hcov hfault ⊢
  have hsize := (entries.le_gen x.names (d + 1) c).size
  refine (h (d + 1) c T (by omega) hagrees (hcov.mono ((Draft.Le.refl _).emit ..)) hfault).bind
    fun vs T₁ ⟨hvs, hlen, hbelow⟩ => ?_
  refine (x.runs_makeDict hx (hcov.emit hsize) (by omega) (by omega) (by omega) hvs).imp
    fun v T' hT' => ?_
  rw [hT']
  exact ((Below.refl d T).trans hbelow (by omega)).written v

/-! ## Calls and instances -/

theorem Expr.right_call {args : Items} (h : e.Right x) (hargs : args.Right x)
    (opening closing : Position) : (call e opening args closing).Right x := by
  intro d c T hd hagrees hcov hfault
  simp only [Expr.gen, Expr.value_call, Expr.fault?, Option.or_eq_none_iff, Draft.size_emit]
    at hcov hfault ⊢
  have hle := args.le_gen x.names (d + 1) (e.gen x.names d c)
  have hsize := (e.le_gen x.names d c).2.le
  refine (h d c T hd hagrees (hcov.mono (hle.emit ..)) hfault.1).bind fun v T₁ ⟨hv, hbelow⟩ => ?_
  refine (hargs (d + 1) _ T₁ (by omega) (hagrees.below hbelow hd)
    ((hcov.mono ((Draft.Le.refl _).emit ..)).later hsize) hfault.2).bind
    fun vs T₂ ⟨hvs, hlen, hbelow'⟩ => ?_
  obtain rfl : T₂ d = v := (hbelow' d (by omega)).trans hv
  refine (x.runs_call hx (hcov.emit (hsize.trans hle.size)) (by omega) (by omega) (by omega) hvs).imp
    fun w T' hT' => ?_
  rw [hT']
  exact (hbelow.trans hbelow' (by omega)).written w

/-- A path is followed step by step, each member taking the place of its owner. -/
theorem runs_selectPath {first : Nat} {d : Int} (hd : 2 ≤ d) (path : List PathStep) (c : Draft)
    (T : Int → Value) (hcov : x.frame.chunk.Covers first (c.selectPath d path))
    (hfirst : first ≤ c.size) :
    x.Runs T c.size (selectAll x (T d) path) (c.selectPath d path).size fun v T' =>
      T' d = v ∧ Below d T T' := by
  induction path generalizing c T with
  | nil => exact .pure ⟨rfl, .refl d T⟩
  | cons step path ih =>
    simp only [Draft.selectPath, List.foldl_cons, selectAll, List.foldlM_cons] at hcov ⊢
    have hselect : x.frame.chunk.Covers first (c.select step.dot d step.name) :=
      hcov.mono ((Draft.Le.refl _).selectPath d path)
    have hload := runs_load (T := T) hx (hselect.mono ((Draft.Le.refl _).emit ..)) hfirst
      (by omega)
    have hdot := hselect.emit (by rw [Draft.size_load]; omega)
    rw [Draft.size_load] at hload hdot
    refine hload.silent fun T₁ hT₁ => ?_
    have hkey : T₁ (d + 1) = .str step.name := by rw [hT₁, Function.update_self]
    have hbelow : Below (d + 1) T T₁ := hT₁ ▸ ((Below.refl (d + 1) T).written _).2
    rw [← hbelow d (by omega), ← hkey]
    refine (x.runs_dot hx hdot (by omega) (by omega) (by omega)).bind fun v T₂ hT₂ => ?_
    have hwritten := ((Below.refl d T).trans hbelow (by omega)).written v
    rw [← hT₂] at hwritten
    have hrest := ih (c.select step.dot d step.name) T₂ hcov (by rw [Draft.size_select]; omega)
    rw [Draft.size_select, hwritten.1] at hrest
    exact hrest.imp fun w T' hselect => ⟨hselect.1, hwritten.2.trans hselect.2 (le_refl d)⟩

/-- The class of an instance, up to its call. -/
theorem runs_class {cls : Expr} (h : cls.Right x) {path : List PathStep} {place : Position} {d : Int}
    {c : Draft} {T : Int → Value} (hd : 2 ≤ d) (hagrees : x.Agrees T)
    (hcov : x.frame.chunk.Covers c.size
      (((cls.gen x.names d (c.internName cls.className?)).selectPath d path).emit place .newObject d d
        (c.nameIndex (fallback? cls path)))) (hfault : cls.fault? = none) {m : Script Value} {pc' : Nat}
    {k : Value → Script Value} {Q : Value → (Int → Value) → Prop}
    (hk : ∀ v T', T' d = v → Below d T T' →
      x.Runs T' (((cls.gen x.names d (c.internName cls.className?)).selectPath d path).size + 1)
        (k v) pc' Q)
    (hm : m = (do
      let v ← cls.value x
      let target ← selectAll x v path
      let v ← Script.tracing place (classOf target (fallback? cls path))
      k v)) :
    x.Runs T c.size m pc' Q := by
  subst hm
  have hcls := cls.le_gen x.names d (c.internName cls.className?)
  have hpath := (Draft.Le.refl (cls.gen x.names d (c.internName cls.className?))).selectPath d path
  have hsize : (c.internName cls.className?).size = c.size := Draft.size_internName _
  have hcov' := hcov.mono ((Draft.Le.refl _).emit ..)
  have hvalue := h d (c.internName cls.className?) T hd hagrees
    (by rw [hsize]; exact hcov'.mono hpath) hfault
  rw [hsize] at hvalue
  refine hvalue.bind fun v T₁ ⟨hv, hbelow⟩ => ?_
  subst hv
  refine (runs_selectPath hx hd path _ T₁ hcov' (by omega)).bind fun w T₂ ⟨hw, hbelow'⟩ => ?_
  subst hw
  have hbelow₂ := hbelow.trans hbelow' (le_refl d)
  have hfallback := (hcov'.mono (hcls.1.trans hpath)).fallsBack path
  refine (x.runs_newObject hx (hcov.emit (by have := hpath.size; omega)) (by omega) (by omega)
    hfallback).bind fun u T₃ hT₃ => ?_
  have hwritten := hbelow₂.written u
  rw [← hT₃] at hwritten
  exact hk u T₃ hwritten.1 hwritten.2

theorem Expr.right_fresh {cls : Expr} (h : cls.Right x) (place : Position) (path : List PathStep) :
    (fresh place cls path).Right x := by
  intro d c T hd hagrees hcov hfault
  simp only [Expr.gen, Expr.value_fresh, create, Expr.fault?, Draft.size_emit, pure_bind]
    at hcov hfault ⊢
  have hcls := cls.le_gen x.names d (c.internName cls.className?)
  have hpath := (Draft.Le.refl (cls.gen x.names d (c.internName cls.className?))).selectPath d path
  refine runs_class hx h hd hagrees (hcov.mono ((Draft.Le.refl _).emit ..)) hfault
    (fun v T₁ hv hbelow => ?_) rfl
  subst hv
  have hcall := hcov.emit (by
    have := hpath.size
    have := Draft.size_internName (c := c) cls.className?
    rw [Draft.size_emit]
    omega)
  rw [Draft.size_emit] at hcall
  have hrow : Row T₁ (d + 1) [] := trivial
  refine (x.runs_call hx hcall (by omega) (by omega) (by simp) hrow).imp fun w T' hT' => ?_
  rw [hT']
  exact hbelow.written w

theorem Expr.right_freshWith {cls : Expr} {args : Items} (h : cls.Right x) (hargs : args.Right x)
    (place : Position) (path : List PathStep) (opening closing : Position) :
    (freshWith place cls path opening args closing).Right x := by
  intro d c T hd hagrees hcov hfault
  simp only [Expr.gen, Expr.value_freshWith, create, Expr.fault?, Option.or_eq_none_iff,
    Draft.size_emit] at hcov hfault ⊢
  have hcls := cls.le_gen x.names d (c.internName cls.className?)
  have hpath := (Draft.Le.refl (cls.gen x.names d (c.internName cls.className?))).selectPath d path
  have hsize : c.size ≤
      ((cls.gen x.names d (c.internName cls.className?)).selectPath d path).size := by
    have := hpath.size
    have := Draft.size_internName (c := c) cls.className?
    omega
  have hle := args.le_gen x.names (d + 1)
    (((cls.gen x.names d (c.internName cls.className?)).selectPath d path).emit place .newObject d d
      (c.nameIndex (fallback? cls path)))
  refine runs_class hx h hd hagrees (hcov.mono (hle.emit ..)) hfault.1
    (fun v T₁ hv hbelow => ?_) rfl
  have hrun := hargs (d + 1) _ T₁ (by omega) (hagrees.below hbelow hd)
    ((hcov.mono ((Draft.Le.refl _).emit ..)).later (by rw [Draft.size_emit]; omega)) hfault.2
  rw [Draft.size_emit] at hrun
  refine hrun.bind fun vs T₂ ⟨hvs, hlen, hbelow'⟩ => ?_
  obtain rfl : T₂ d = v := (hbelow' d (by omega)).trans hv
  have hcall := hcov.emit (by have := hle.size; rw [Draft.size_emit] at this; omega)
  refine (x.runs_call hx hcall (by omega) (by omega) (by omega) hvs).imp fun w T' hT' => ?_
  rw [hT']
  exact (hbelow.trans hbelow' (by omega)).written w

end

end ScriptEngine
