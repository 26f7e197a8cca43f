import ScriptEngine.Proofs.Expression.Reading

/-!
# Trees are compiled to their code

If the tokens of an expression follow, the grammar makes the code of its tree, and fails exactly
if one of its operators needs a target and has none.

An expression is read as its leading part and then one continuation after the other. So the
statement about a tree is made with what follows it (`Leads`): reading a tree and then continuing
with some fuel is the same as continuing behind it with less.
-/

namespace ScriptEngine

/-! ## Tokens of trees -/

/-- Whether a token can start an expression, if it is a sign at all. -/
def Token.Kind.opens : Token.Kind → Bool
  | .mark sign =>
    match sign with
    | .lParen | .lBracket | .dictOpen | .sub | .add | .not | .bitNot | .hash | .dollar | .inc
    | .dec => true
    | _ => false
  | _ => true

theorem UnaryOp.opens (op : UnaryOp) : op.kind.opens = true := by
  rcases op with _ | _ | _ | _ | _ | _ | _ | (_ | _ | _) <;> rfl

theorem AssignOp.leftPower (op : AssignOp) : op.kind.leftPower = Power.assignment := by
  rcases op with _ | ⟨kind, op, h⟩
  · rfl
  · rcases kind with _ | _ | _ | word | sign | _ <;> try cases h
    cases sign <;> first | rfl | cases h

theorem StepOp.leftPower (op : StepOp) : op.kind.leftPower = Power.unary := by
  cases op <;> rfl

namespace Expr

/-- The number of tokens. -/
def size (e : Expr) : Nat :=
  e.rest.length + 1

theorem opens_first (e : Expr) : e.first.kind.opens = true := by
  fun_induction first e
  case case9 op _ _ => exact op.opens
  case case23 op _ _ => cases op <;> rfl
  all_goals first | assumption | rfl

theorem first_ne (e : Expr) {m : Mark} (hm : (Token.Kind.mark m).opens = false) :
    e.first.kind ≠ .mark m := by
  intro h
  have hopens := e.opens_first
  rw [h, hm] at hopens
  cases hopens

/-- The token behind a conversion word starts its operand. -/
theorem rest_of_conversion {e : Expr} {op : Op} (h : Compile.castOp? e.first.kind = some op) :
    ∃ t ts, e.rest = t :: ts ∧ t.kind ≠ .mark .rParen := by
  fun_induction first e
  case case3 b => cases b <;> cases h
  case case9 op _ e => exact ⟨_, _, by rw [rest], e.first_ne rfl⟩
  case case23 op _ _ => cases op <;> cases h
  -- Left are the expressions that start with one of their parts, and those that cannot be meant.
  all_goals first
    | cases h
    | rename_i ih
      obtain ⟨t, ts, hrest, hne⟩ := ih h
      exact ⟨t, _, by rw [rest, hrest, List.cons_append], hne⟩

/-- The token behind a name that an expression starts with continues it, so it is no colon. -/
theorem rest_of_ident {e : Expr} {power : Nat} {s : String} (hfits : e.Fits power)
    (h : e.first.kind = .ident s) :
    (∃ place, e = .name place s) ∨ ∃ t ts, e.rest = t :: ts ∧ t.kind.leftPower ≠ 0 := by
  -- Behind a left part stands either the token behind its own first one, or the operator.
  have hleft : ∀ {l : Expr} {t : Token} {ts : List Token}, t.kind.leftPower ≠ 0 →
      ((∃ place, l = .name place s) ∨ ∃ t ts, l.rest = t :: ts ∧ t.kind.leftPower ≠ 0) →
      ∃ u us, l.rest ++ t :: ts = u :: us ∧ u.kind.leftPower ≠ 0 := by
    rintro l t ts ht (⟨place, rfl⟩ | ⟨u, us, hrest, hu⟩)
    · exact ⟨t, ts, by simp only [rest, List.nil_append], ht⟩
    · exact ⟨u, us ++ t :: ts, by rw [hrest, List.cons_append], hu⟩
  fun_induction first e
  case case6 => cases h; exact .inl ⟨_, rfl⟩
  case case3 b => cases b <;> cases h
  case case9 op _ e => rcases op with _ | _ | _ | _ | _ | _ | _ | (_ | _ | _) <;> cases h
  case case23 op _ _ => cases op <;> cases h
  all_goals try cases h
  all_goals
    rename_i ih
    simp only [Fits] at hfits
    refine .inr ?_
    rw [rest]
    refine hleft ?_ (ih (by simp only [hfits]) h)
    first
      | exact (Nat.zero_lt_of_lt hfits.1).ne'
      | decide
      | rw [AssignOp.leftPower]; decide
      | rw [StepOp.leftPower]; decide

end Expr

theorem DictKey.tokens_cons (key : DictKey) :
    ∃ t us, key.tokens = t :: us ∧ t.kind ≠ .mark .rBracket := by
  cases key with
  | label place s colon => exact ⟨⟨.ident s, place⟩, _, by rw [DictKey.tokens], by simp⟩
  | computed e separator place => exact ⟨_, _, by rw [DictKey.tokens], e.first_ne rfl⟩

/-- Where the value of an expression comes from, once its code is there. -/
def Expr.result (names : Names) (e : Expr) (d : Int) (c : Draft) : Operand :=
  e.operand names d ((e.gen names d c).size - 1)

theorem Expr.result_ne_done (names : Names) (e : Expr) (d : Int) (c : Draft) :
    e.result names d c ≠ .done := by
  unfold result
  generalize (e.gen names d c).size - 1 = n
  fun_induction operand names d n e <;> simp_all

namespace Compile

/-! ## Reading a tree -/

/-- An entry point of the grammar makes the code of an expression. -/
def Parses (s₀ : CompileState) (p : Productions) (e : Expr) : Prop :=
  ∀ power d c pl t ts, e.Fits power → e.Stops t.kind → t.kind.leftPower ≤ power →
    Takes s₀ ⟨c, pl, e.rest ++ t :: ts⟩ (p.expression e.first power d) e.fault?
      (e.result s₀.names d c) ⟨e.gen s₀.names d c, none, t :: ts⟩

/-- The leading part of an expression, and what continues it. -/
def spine (p : Productions) (first : Token) (power : Nat) (d : Int) (n : Nat) :
    Compile Operand := do
  let left ← leading p first power d
  if left = .done then return left else climb p power d n left

/-- Reading an expression leads to its end, with fuel left for what continues it. -/
def Leads (s₀ : CompileState) (p : Productions) (e : Expr) : Prop :=
  ∀ power d n c pl t ts φ b g, e.Fits power → e.Stops t.kind → e.size ≤ n →
    (∀ m pl', n < m + e.size →
      Takes s₀ ⟨e.gen s₀.names d c, pl', t :: ts⟩ (climb p power d m (e.result s₀.names d c)) φ b g) →
    Takes s₀ ⟨c, pl, e.rest ++ t :: ts⟩ (spine p e.first power d n) (e.fault?.or φ) b g

variable {s₀ : CompileState} {p : Productions} {e l : Expr}

theorem Parses.parse (h : Parses s₀ p e) {power : Nat} {d : Int} {c : Draft}
    {pl : Option Position} {t : Token} {ts : List Token} (hfits : e.Fits power)
    (hstops : e.Stops t.kind) (hpower : t.kind.leftPower ≤ power) :
    Takes s₀ ⟨c, pl, e.first :: (e.rest ++ t :: ts)⟩ (parse p power d) e.fault?
      (e.result s₀.names d c) ⟨e.gen s₀.names d c, none, t :: ts⟩ :=
  takes_next.andThen (h power d c _ t ts hfits hstops hpower)

theorem leads_of_leading
    (h : ∀ power d c pl t ts, e.Fits power → e.Stops t.kind → ∃ pl',
      Takes s₀ ⟨c, pl, e.rest ++ t :: ts⟩ (leading p e.first power d) e.fault?
        (e.result s₀.names d c) ⟨e.gen s₀.names d c, pl', t :: ts⟩) : Leads s₀ p e := by
  intro power d n c pl t ts φ b g hfits hstops _ hclimb
  obtain ⟨pl', hlead⟩ := h power d c pl t ts hfits hstops
  refine hlead.bind ?_
  rw [if_neg (e.result_ne_done _ _ _)]
  exact hclimb n pl' (by unfold Expr.size; omega)

/-- An expression that continues another one. -/
theorem leads_of_trailing (t₀ : Token) (ψ : Option Position) {us : List Token} (hl : Leads s₀ p l)
    (hfirst : e.first = l.first) (hrest : e.rest = l.rest ++ t₀ :: us)
    (hfault : e.fault? = l.fault?.or ψ)
    (hfits : ∀ power, e.Fits power →
      power < t₀.kind.leftPower ∧ l.Fits power ∧ l.Stops t₀.kind)
    (h : ∀ power d c t ts, e.Fits power → e.Stops t.kind → ∃ pl',
      Takes s₀ ⟨l.gen s₀.names d c, some t₀.position, us ++ t :: ts⟩
        (trailing p t₀ (l.result s₀.names d c) d) ψ (e.result s₀.names d c)
          ⟨e.gen s₀.names d c, pl', t :: ts⟩) : Leads s₀ p e := by
  intro power d n c pl t ts φ b g he hstops hsize hclimb
  obtain ⟨hpower, hlfits, hlstops⟩ := hfits power he
  have hlen : l.size + 1 ≤ e.size := by
    simp only [Expr.size, hrest, List.length_append, List.length_cons]
    omega
  rw [hfirst, hrest, List.append_assoc, List.cons_append, hfault, Option.or_assoc]
  refine hl power d n c pl t₀ (us ++ t :: ts) (ψ.or φ) b g hlfits hlstops (by omega)
    fun m pl₁ hm => ?_
  obtain ⟨m, rfl⟩ : ∃ k, m = k + 1 := ⟨m - 1, by omega⟩
  obtain ⟨pl', htrail⟩ := h power d c t ts he hstops
  refine takes_next.andThen ?_
  rw [if_neg (by omega)]
  exact htrail.bind (hclimb m pl' (by omega))

/-- One more level of the grammar. -/
theorem Leads.parses {n : Nat} (h : Leads s₀ (productions n) e) (hsize : e.size ≤ n) :
    Parses s₀ (productions (n + 1)) e := by
  intro power d c pl t ts hfits hstops hpower
  have hspine := h power d n c pl t ts none (e.result s₀.names d c)
    ⟨e.gen s₀.names d c, none, t :: ts⟩ hfits hstops hsize fun m pl' hm => ?_
  · rwa [Option.or_none] at hspine
  · obtain ⟨m, rfl⟩ : ∃ k, m = k + 1 := ⟨m - 1, by unfold Expr.size at *; omega⟩
    refine takes_next.andThen ?_
    rw [if_pos hpower]
    exact takes_pushBack.andThen (.pure _)

/-! ## Leading parts -/

section

variable {d : Int} {c : Draft} {pl : Option Position} {t : Token} {ts : List Token}

theorem takes_loadConstant (v : Value) (place : Position) :
    Takes s₀ ⟨c, pl, ts⟩ (loadConstant v d place) none .temp ⟨c.load place d v, pl, ts⟩ :=
  takes_constant.andThen takes_last

theorem takes_loadName (s : String) (place : Position) :
    Takes s₀ ⟨c, pl, ts⟩ (loadName s d place) none ((Expr.name place s).result s₀.names d c)
      ⟨(Expr.name place s).gen s₀.names d c, pl, ts⟩ := by
  refine .get_bind fun state hstate => ?_
  have hslot : state.current.resolve s = s₀.names.slot? s :=
    congrArg (fun names : Names => names.slot? s) hstate.names
  have hlinked : (state.enclosing.any fun f => (f.resolve s).isSome) = s₀.names.linked s :=
    congrArg (fun names : Names => names.linked s) hstate.names
  simp only [hslot, hlinked, Expr.result, Expr.gen, Expr.operand]
  rcases s₀.names.slot? s with _ | register
  · refine takes_name.andThen ?_
    rcases s₀.names.linked s
    · refine takes_emitAt.andThen (takes_emitAt.andThen ?_)
      simpa using .pure _
    · refine takes_emitAt.andThen (takes_emitAt.andThen (takes_emitAt.andThen ?_))
      simpa using .pure _
  · refine takes_emitAt.andThen ?_
    simpa using .pure _

theorem takes_unary (h : Parses s₀ p e) {power : Nat} (hfits : e.Fits power)
    (hstops : e.Stops t.kind) (hpower : t.kind.leftPower ≤ power) (op : Op) (place : Position) :
    Takes s₀ ⟨c, pl, e.first :: (e.rest ++ t :: ts)⟩ (unary p op power d place) e.fault? .temp
      ⟨(e.gen s₀.names d c).emit place op d d, none, t :: ts⟩ :=
  (h.parse hfits hstops hpower).finish takes_last

end

theorem leads_number (place : Position) (x : Number) : Leads s₀ p (.number place x) := by
  refine leads_of_leading fun power d c pl t ts _ _ => ⟨pl, ?_⟩
  simp only [Expr.rest, Expr.fault?, Expr.gen]
  exact takes_loadConstant _ _

theorem leads_text (place : Position) (s : String) : Leads s₀ p (.text place s) := by
  refine leads_of_leading fun power d c pl t ts _ _ => ⟨pl, ?_⟩
  simp only [Expr.rest, Expr.fault?, Expr.gen]
  exact takes_loadConstant _ _

theorem leads_truth (place : Position) (b : Bool) : Leads s₀ p (.truth place b) := by
  refine leads_of_leading fun power d c pl t ts _ _ => ⟨pl, ?_⟩
  simp only [Expr.rest, Expr.fault?, Expr.gen]
  cases b
  · exact takes_last
  · exact takes_last

theorem leads_this (place : Position) : Leads s₀ p (.this place) := by
  refine leads_of_leading fun power d c pl t ts _ _ => ⟨pl, ?_⟩
  simp only [Expr.rest, Expr.fault?, Expr.gen]
  exact takes_last

theorem leads_global (place : Position) : Leads s₀ p (.global place) := by
  refine leads_of_leading fun power d c pl t ts _ _ => ⟨pl, ?_⟩
  simp only [Expr.rest, Expr.fault?, Expr.gen]
  exact takes_last

theorem leads_name (place : Position) (s : String) : Leads s₀ p (.name place s) := by
  refine leads_of_leading fun power d c pl t ts _ _ => ⟨pl, ?_⟩
  simp only [Expr.rest, Expr.fault?]
  exact takes_loadName s place

theorem leads_unary (h : Parses s₀ p e) (op : UnaryOp) (place : Position) :
    Leads s₀ p (.unary op place e) := by
  refine leads_of_leading fun power d c pl t ts hfits hstops => ⟨none, ?_⟩
  simp only [Expr.Fits, Expr.Stops] at hfits hstops
  simp only [Expr.rest, Expr.fault?, Expr.gen, List.cons_append]
  rcases op with _ | _ | _ | _ | _ | _ | _ | (_ | _ | _) <;>
    exact takes_unary h hfits hstops.2 hstops.1 _ place

/-! ## Parentheses -/

theorem leads_paren (h : Parses s₀ p e) (opening closing : Position) :
    Leads s₀ p (.paren opening e closing) := by
  refine leads_of_leading fun power d c pl t ts hfits _ => ⟨some closing, ?_⟩
  simp only [Expr.Fits] at hfits
  simp only [Expr.rest, Expr.fault?, Expr.gen, List.cons_append, List.append_assoc, List.nil_append]
  have hinner : ∀ place, Takes s₀ ⟨c, place, e.rest ++ ⟨.mark .rParen, closing⟩ :: t :: ts⟩
      (do
        let left ← p.expression e.first Power.expression d
        expect (.mark .rParen)
        return left)
      e.fault? (e.result s₀.names d c) ⟨e.gen s₀.names d c, some closing, t :: ts⟩ := fun place =>
    (h Power.expression d c place ⟨.mark .rParen, closing⟩ (t :: ts) hfits.1 hfits.2
      (Nat.zero_le _)).finish (takes_expect.andThen (.pure _))
  refine takes_next.andThen ?_
  rcases hcast : castOp? e.first.kind with _ | op
  · exact hinner _
  · obtain ⟨u, us, hrest, hu⟩ := Expr.rest_of_conversion hcast
    simp only [hrest, List.cons_append] at hinner ⊢
    refine takes_next.andThen ?_
    rw [if_neg hu]
    exact takes_pushBack.andThen (hinner _)

theorem leads_cast (h : Parses s₀ p e) (opening place closing : Position) (word : Conversion) :
    Leads s₀ p (.cast opening word place closing e) := by
  refine leads_of_leading fun power d c pl t ts hfits hstops => ⟨none, ?_⟩
  simp only [Expr.Fits, Expr.Stops] at hfits hstops
  simp only [Expr.rest, Expr.fault?, Expr.gen, List.cons_append]
  refine takes_next.andThen ?_
  cases word <;>
    exact takes_next.andThen (takes_unary h hfits hstops.2 hstops.1 _ place)

/-! ## Lists -/

section

variable {N : Nat} (hp : ∀ e : Expr, e.size < N → Parses s₀ p e) {closing : Position}
  {ts : List Token}

include hp

theorem takes_argumentsFrom :
    ∀ (items : Items) (fuel : Nat) (register : Int) (c : Draft) (pl : Option Position),
      items.Filled → items.Fit (.mark .rParen) → items.tokens.length < N →
      items.tokens.length ≤ fuel →
      Takes s₀ ⟨c, pl, items.tokens ++ ⟨.mark .rParen, closing⟩ :: ts⟩
        (argumentsFrom p register fuel) items.fault? (register + items.count)
        ⟨items.gen s₀.names register c, some closing, ts⟩
  | .done, _, _, _, _, hfilled, _, _, _ => hfilled.elim
  | .hole _ _, _, _, _, _, hfilled, _, _, _ => hfilled.elim
  | .last e, fuel, register, c, pl, _, hfit, hsize, hfuel => by
    simp only [Items.Fit] at hfit
    simp only [Items.tokens, Items.fault?, Items.count, Items.gen, List.length_cons,
      List.cons_append] at hsize hfuel ⊢
    obtain ⟨fuel, rfl⟩ : ∃ k, fuel = k + 1 := ⟨fuel - 1, by omega⟩
    exact ((hp e hsize).parse hfit.1 hfit.2 (Nat.zero_le _)).finish
      (takes_next.andThen (.pure _))
  | .more e comma items, fuel, register, c, pl, hfilled, hfit, hsize, hfuel => by
    simp only [Items.Fit, Items.Filled] at hfit hfilled
    simp only [Items.tokens, Items.fault?, Items.count, Items.gen, List.length_cons,
      List.length_append, List.cons_append, List.append_assoc] at hsize hfuel ⊢
    obtain ⟨fuel, rfl⟩ : ∃ k, fuel = k + 1 := ⟨fuel - 1, by omega⟩
    have he : e.size < N := by unfold Expr.size; omega
    have hitems := takes_argumentsFrom items fuel (register + 1) (e.gen s₀.names register c)
      (some comma) hfilled hfit.2.2 (by omega) (by omega)
    refine ((hp e he).parse hfit.1 hfit.2.1 (le_refl _)).bind (takes_next.andThen ?_)
    rw [show register + (items.count + 1) = register + 1 + items.count by omega]
    exact hitems

theorem takes_arguments {items : Items} {c : Draft} {pl : Option Position} {register : Int}
    (hfilled : items = .done ∨ items.Filled) (hfit : items.Fit (.mark .rParen))
    (hsize : items.tokens.length < N) (hbudget : N ≤ p.budget) :
    Takes s₀ ⟨c, pl, items.tokens ++ ⟨.mark .rParen, closing⟩ :: ts⟩ (arguments p register)
      items.fault? (register + items.count) ⟨items.gen s₀.names register c, some closing, ts⟩ := by
  rcases hfilled with rfl | hfilled
  · simp only [Items.tokens, Items.fault?, Items.count, Items.gen, List.nil_append, add_zero]
    exact takes_next.andThen (.pure _)
  · have hargs : Takes s₀ ⟨c, none, items.tokens ++ ⟨.mark .rParen, closing⟩ :: ts⟩
        (argumentsFrom p register p.budget) items.fault? (register + items.count)
        ⟨items.gen s₀.names register c, some closing, ts⟩ :=
      takes_argumentsFrom hp items p.budget register c none hfilled hfit hsize (by omega)
    -- The first token is looked at and given back.
    obtain ⟨e, us, htokens⟩ : ∃ (e : Expr) (us : List Token), items.tokens = e.first :: us := by
      cases items with
      | done => exact hfilled.elim
      | hole => exact hfilled.elim
      | last e => exact ⟨e, _, by rw [Items.tokens]⟩
      | more e comma items => exact ⟨e, _, by rw [Items.tokens]⟩
    rw [htokens, List.cons_append] at hargs ⊢
    refine takes_next.andThen ?_
    rw [if_neg (e.first_ne rfl)]
    exact takes_pushBack.andThen hargs

theorem takes_arrayItems :
    ∀ (items : Items) (fuel : Nat) (register : Int) (c : Draft) (pl : Option Position),
      items.Fit (.mark .rBracket) → items.tokens.length < N → items.tokens.length < fuel →
      Takes s₀ ⟨c, pl, items.tokens ++ ⟨.mark .rBracket, closing⟩ :: ts⟩
        (arrayItems p register fuel) items.fault? (register + items.count)
        ⟨items.gen s₀.names register c, some closing, ts⟩
  | .done, fuel, register, c, pl, _, _, hfuel => by
    obtain ⟨fuel, rfl⟩ : ∃ k, fuel = k + 1 := ⟨fuel - 1, by omega⟩
    simp only [Items.tokens, Items.fault?, Items.count, Items.gen, List.nil_append, add_zero]
    exact takes_next.andThen (.pure _)
  | .hole comma items, fuel, register, c, pl, hfit, hsize, hfuel => by
    simp only [Items.Fit] at hfit
    simp only [Items.tokens, Items.fault?, Items.count, Items.gen, List.length_cons,
      List.cons_append] at hsize hfuel ⊢
    obtain ⟨fuel, rfl⟩ : ∃ k, fuel = k + 1 := ⟨fuel - 1, by omega⟩
    rw [show register + (items.count + 1) = register + 1 + items.count by omega]
    exact takes_next.andThen (takes_emit.andThen
      (takes_arrayItems items fuel _ _ _ hfit (by omega) (by omega)))
  | .last e, fuel, register, c, pl, hfit, hsize, hfuel => by
    simp only [Items.Fit] at hfit
    simp only [Items.tokens, Items.fault?, Items.count, Items.gen, List.length_cons,
      List.cons_append] at hsize hfuel ⊢
    obtain ⟨fuel, rfl⟩ : ∃ k, fuel = k + 1 := ⟨fuel - 1, by omega⟩
    refine takes_next.andThen ?_
    rw [if_neg (e.first_ne rfl), if_neg (e.first_ne rfl)]
    exact (hp e hsize _ _ _ _ ⟨.mark .rBracket, closing⟩ ts hfit.1 hfit.2 (Nat.zero_le _)).finish
      (takes_next.andThen (.pure _))
  | .more e comma items, fuel, register, c, pl, hfit, hsize, hfuel => by
    simp only [Items.Fit] at hfit
    simp only [Items.tokens, Items.fault?, Items.count, Items.gen, List.length_cons,
      List.length_append, List.cons_append, List.append_assoc] at hsize hfuel ⊢
    obtain ⟨fuel, rfl⟩ : ∃ k, fuel = k + 1 := ⟨fuel - 1, by omega⟩
    have he : e.size < N := by unfold Expr.size; omega
    refine takes_next.andThen ?_
    rw [if_neg (e.first_ne rfl), if_neg (e.first_ne rfl),
      show register + (items.count + 1) = register + 1 + items.count by omega]
    exact (hp e he _ _ _ _ ⟨.mark .comma, comma⟩ _ hfit.1 hfit.2.1 (le_refl _)).bind
      (takes_next.andThen (takes_arrayItems items fuel _ _ _ hfit.2.2 (by omega) (by omega)))

end

theorem leads_array {N : Nat} (hp : ∀ e : Expr, e.size < N → Parses s₀ p e) (hbudget : N ≤ p.budget)
    {items : Items} (hsize : items.tokens.length < N) (opening closing : Position) :
    Leads s₀ p (.array opening items closing) := by
  refine leads_of_leading fun power d c pl t ts hfits _ => ⟨some closing, ?_⟩
  simp only [Expr.Fits] at hfits
  simp only [Expr.rest, Expr.fault?, Expr.gen, List.append_assoc, List.cons_append, List.nil_append]
  exact (takes_arrayItems hp items p.budget (d + 1) c pl hfits hsize (by omega)).finish takes_last

/-! ## Dictionaries -/

section

variable {N : Nat} (hp : ∀ e : Expr, e.size < N → Parses s₀ p e) {ts : List Token}

include hp

theorem takes_dictKey {key : DictKey} {register : Int} {c : Draft} {t : Token} {us : List Token}
    (hfit : key.Fit) (htokens : key.tokens = t :: us) (hsize : key.tokens.length < N) {p₀ : Position} :
    Takes s₀ ⟨c, some p₀, us ++ ts⟩ (dictKey p t register) key.fault? ()
      ⟨key.gen s₀.names register c, none, ts⟩ := by
  cases key with
  | label place s colon =>
    simp only [DictKey.tokens] at htokens
    cases htokens
    simp only [DictKey.fault?, DictKey.gen, List.cons_append, List.nil_append]
    exact (takes_next.andThen (takes_name.andThen (takes_emit.andThen (.pure ())))).forget
  | computed e separator place =>
    simp only [DictKey.tokens] at htokens hsize
    cases htokens
    simp only [DictKey.Fit] at hfit
    obtain ⟨hsep, hfits, hstops⟩ := hfit
    have he : e.size < N := by
      simp only [List.length_cons, List.length_append] at hsize
      unfold Expr.size
      omega
    simp only [DictKey.fault?, DictKey.gen, List.append_assoc, List.cons_append, List.nil_append]
    have hspelled : ∀ place', Takes s₀ ⟨c, place', e.rest ++ ⟨.mark separator, place⟩ :: ts⟩
        (do
          let _ ← p.expression e.first Power.comma register
          let sep ← next
          if sep.kind = .mark .arrow || sep.kind = .mark .colon then return ()
          else fail (.expected (.sign .arrow) sep.kind) sep.position)
        e.fault? () ⟨e.gen s₀.names register c, none, ts⟩ := by
      intro place'
      have hpower : (Token.Kind.mark separator).leftPower ≤ Power.comma := by
        rcases hsep with rfl | ⟨rfl, -⟩ <;> decide
      have hsep' : Takes s₀ ⟨e.gen s₀.names register c, none, ⟨.mark separator, place⟩ :: ts⟩
          (do
            let sep ← next
            if sep.kind = .mark .arrow || sep.kind = .mark .colon then return ()
            else fail (.expected (.sign .arrow) sep.kind) sep.position)
          none () ⟨e.gen s₀.names register c, some place, ts⟩ := by
        rcases hsep with rfl | ⟨rfl, -⟩ <;> exact takes_next.andThen (.pure ())
      exact ((hp e he Power.comma register c place' ⟨.mark separator, place⟩ ts hfits hstops
        hpower).finish hsep').forget
    unfold dictKey
    rcases hkind : e.first.kind with _ | _ | s | _ | _ | _
    case ident =>
      obtain ⟨u, us, hrest, hu⟩ : ∃ u us, e.rest ++ ⟨.mark separator, place⟩ :: ts = u :: us ∧
          u.kind ≠ .mark .colon := by
        rcases Expr.rest_of_ident hfits hkind with ⟨place', rfl⟩ | ⟨u, us, hrest, hu⟩
        · rcases hsep with rfl | ⟨rfl, hne⟩
          · exact ⟨_, _, by rw [Expr.rest, List.nil_append], by simp⟩
          · exact absurd rfl (hne place' s)
        · refine ⟨u, _, by rw [hrest, List.cons_append], fun hcolon => hu ?_⟩
          rw [hcolon]
          rfl
      simp only [hrest] at hspelled ⊢
      refine takes_next.andThen ?_
      rw [if_neg hu]
      exact takes_pushBack.andThen (hspelled _)
    all_goals exact hspelled _

theorem takes_dictEntries {closing : Position} :
    ∀ (entries : Entries) (fuel : Nat) (register : Int) (c : Draft) (pl : Option Position),
      entries.Fit → entries.tokens.length < N → entries.tokens.length < fuel →
      Takes s₀ ⟨c, pl, entries.tokens ++ ⟨.mark .rBracket, closing⟩ :: ts⟩
        (dictEntries p register fuel) entries.fault? (register + entries.count)
        ⟨entries.gen s₀.names register c, some closing, ts⟩
  | .done, fuel, register, c, pl, _, _, hfuel => by
    obtain ⟨fuel, rfl⟩ : ∃ k, fuel = k + 1 := ⟨fuel - 1, by omega⟩
    simp only [Entries.tokens, Entries.fault?, Entries.count, Entries.gen, List.nil_append,
      add_zero]
    exact takes_next.andThen (.pure _)
  | .last key e, fuel, register, c, pl, hfit, hsize, hfuel => by
    simp only [Entries.Fit] at hfit
    obtain ⟨t, us, htokens, ht⟩ := key.tokens_cons
    simp only [Entries.tokens, Entries.fault?, Entries.count, Entries.gen, List.length_append,
      List.length_cons, List.append_assoc, List.cons_append] at hsize hfuel ⊢
    obtain ⟨fuel, rfl⟩ : ∃ k, fuel = k + 1 := ⟨fuel - 1, by omega⟩
    have he : e.size < N := by unfold Expr.size; omega
    have hkey : ∀ ts, Takes s₀ ⟨c, some t.position, us ++ ts⟩ (dictKey p t register) key.fault? ()
        ⟨key.gen s₀.names register c, none, ts⟩ := fun ts =>
      takes_dictKey hp hfit.1 htokens (by omega)
    rw [htokens, List.cons_append]
    refine takes_next.andThen ?_
    rw [if_neg ht]
    refine (hkey _).bind ?_
    exact ((hp e he).parse hfit.2.1 hfit.2.2 (Nat.zero_le _)).finish
      (takes_next.andThen (.pure _))
  | .more key e comma entries, fuel, register, c, pl, hfit, hsize, hfuel => by
    simp only [Entries.Fit] at hfit
    obtain ⟨t, us, htokens, ht⟩ := key.tokens_cons
    simp only [Entries.tokens, Entries.fault?, Entries.count, Entries.gen, List.length_append,
      List.length_cons, List.append_assoc, List.cons_append] at hsize hfuel ⊢
    obtain ⟨fuel, rfl⟩ : ∃ k, fuel = k + 1 := ⟨fuel - 1, by omega⟩
    have he : e.size < N := by unfold Expr.size; omega
    have hkey : ∀ ts, Takes s₀ ⟨c, some t.position, us ++ ts⟩ (dictKey p t register) key.fault? ()
        ⟨key.gen s₀.names register c, none, ts⟩ := fun ts =>
      takes_dictKey hp hfit.1 htokens (by omega)
    rw [htokens, List.cons_append]
    refine takes_next.andThen ?_
    rw [if_neg ht, show register + (entries.count + 2) = register + 2 + entries.count by omega]
    refine (hkey _).bind (((hp e he).parse hfit.2.1 hfit.2.2.1 (le_refl _)).bind ?_)
    exact takes_next.andThen
      (takes_dictEntries entries fuel _ _ _ hfit.2.2.2 (by omega) (by omega))

end

theorem leads_dict {N : Nat} (hp : ∀ e : Expr, e.size < N → Parses s₀ p e) (hbudget : N ≤ p.budget)
    {entries : Entries} (hsize : entries.tokens.length < N) (opening closing : Position) :
    Leads s₀ p (.dict opening entries closing) := by
  refine leads_of_leading fun power d c pl t ts hfits _ => ⟨some closing, ?_⟩
  simp only [Expr.Fits] at hfits
  simp only [Expr.rest, Expr.fault?, Expr.gen, List.append_assoc, List.cons_append, List.nil_append]
  exact (takes_dictEntries hp entries p.budget (d + 1) c pl hfits hsize (by omega)).finish takes_last

/-! ## Instances -/

theorem takes_dotMember {d : Int} {c : Draft} {pl : Option Position} {ts : List Token}
    {place behind : Position} {s : String} :
    Takes s₀ ⟨c, pl, ⟨.ident s, behind⟩ :: ts⟩ (dotMember d place) none
      (.member d (d + 1) (c.size + 1)) ⟨c.select place d s, some behind, ts⟩ := by
  refine takes_next.andThen (takes_name.andThen (takes_emitAt.andThen (takes_emitAt.andThen ?_)))
  simpa using .pure _

theorem takes_classPath {d : Int} {t : Token} {ts : List Token} (ht : t.kind ≠ .mark .dot) :
    ∀ (path : List PathStep) (fuel : Nat) (fallback : Int) (c : Draft) (pl : Option Position),
      path.length < fuel →
      Takes s₀ ⟨c, pl, path.flatMap PathStep.tokens ++ t :: ts⟩ (classPath p fallback d fuel) none
        (if path.isEmpty then fallback else -1) ⟨c.selectPath d path, none, t :: ts⟩
  | [], fuel, fallback, c, pl, hfuel => by
    obtain ⟨fuel, rfl⟩ : ∃ k, fuel = k + 1 := ⟨fuel - 1, by omega⟩
    refine takes_next.andThen ?_
    rw [if_neg ht]
    exact takes_pushBack.andThen (.pure _)
  | step :: path, fuel, fallback, c, pl, hfuel => by
    obtain ⟨fuel, rfl⟩ : ∃ k, fuel = k + 1 := ⟨fuel - 1, by omega⟩
    have hpath : Takes s₀ ⟨c.select step.dot d step.name, some step.place,
        path.flatMap PathStep.tokens ++ t :: ts⟩ (classPath p (-1) d fuel) none
        (if path.isEmpty then -1 else -1) ⟨(c.select step.dot d step.name).selectPath d path, none,
          t :: ts⟩ :=
      takes_classPath ht path fuel (-1) _ _ (by simpa using hfuel)
    rw [ite_self] at hpath
    simp only [List.flatMap_cons, PathStep.tokens, List.cons_append, List.nil_append]
    exact takes_next.andThen (takes_dotMember.andThen hpath)

theorem length_path (path : List PathStep) :
    path.length ≤ (path.flatMap PathStep.tokens).length := by
  induction path with
  | nil => exact le_refl _
  | cons step path ih =>
    simp only [List.flatMap_cons, PathStep.tokens, List.length_cons, List.length_append]
    omega

theorem leftPower_le_primary (kind : Token.Kind) : kind.leftPower ≤ Power.primary := by
  rcases kind with _ | _ | _ | word | sign | _
  case keyword => cases word <;> decide
  case mark => cases sign <;> decide
  all_goals exact Nat.zero_le _

/-- The token behind the class of an instance. -/
theorem tokens_behindClass (path : List PathStep) (t : Token) (ts : List Token) :
    ∃ u us, path.flatMap PathStep.tokens ++ t :: ts = u :: us ∧
      u.kind = behindClass path t.kind := by
  cases path with
  | nil => exact ⟨t, ts, rfl, rfl⟩
  | cons step path => exact ⟨⟨.mark .dot, step.dot⟩, _, rfl, rfl⟩

/-- The class of an instance, from its first token on. -/
theorem takes_class {cls : Expr} (h : Parses s₀ p cls) {path : List PathStep} {d : Int} {c : Draft}
    {pl : Option Position} {t : Token} {ts : List Token} (hfits : cls.Fits Power.primary)
    (hstops : cls.Stops (behindClass path t.kind)) (ht : t.kind ≠ .mark .dot)
    (hpath : path.length < p.budget) {β : Type} {k : Int → Compile β} {φ : Option Position} {b : β}
    {g : Stage}
    (hk : Takes s₀ ⟨(cls.gen s₀.names d (c.internName cls.className?)).selectPath d path, none,
      t :: ts⟩ (k (c.nameIndex (fallback? cls path))) φ b g) :
    Takes s₀ ⟨c, pl, cls.first :: (cls.rest ++ (path.flatMap PathStep.tokens ++ t :: ts))⟩
      (do
        let first ← next
        let fallback ← match first.kind with
          | .ident s => name s
          | _ => pure (-1)
        let _ ← p.expression first Power.primary d
        let fallback ← classPath p fallback d p.budget
        k fallback)
      (cls.fault?.or φ) b g := by
  have hfallback : (if path.isEmpty then c.nameIndex cls.className? else -1) =
      c.nameIndex (fallback? cls path) := by
    unfold fallback?
    split <;> rfl
  rw [← hfallback] at hk
  obtain ⟨u, us, htokens, hu⟩ := tokens_behindClass path t ts
  have hpaths := (takes_classPath (p := p) ht path p.budget (c.nameIndex cls.className?) _ none
    hpath).andThen hk
  rw [htokens] at hpaths ⊢
  rw [← hu] at hstops
  have hclass : Takes s₀ ⟨c.internName cls.className?, some cls.first.position, cls.rest ++ u :: us⟩
      (do
        let _ ← p.expression cls.first Power.primary d
        let fallback ← classPath p (c.nameIndex cls.className?) d p.budget
        k fallback)
      (cls.fault?.or φ) b g :=
    (h Power.primary d _ _ u us hfits hstops (leftPower_le_primary _)).bind hpaths
  refine takes_next.andThen ?_
  -- The name of a class is added to the constants before its code is made.
  rcases hkind : cls.first.kind <;> simp only [Expr.className?, hkind] at hclass
  case ident => exact takes_name.andThen hclass
  all_goals exact (Takes.pure _).andThen hclass

theorem leads_fresh {cls : Expr} (h : Parses s₀ p cls) {path : List PathStep}
    (hpath : path.length < p.budget) (place : Position) : Leads s₀ p (.fresh place cls path) := by
  refine leads_of_leading fun power d c pl t ts hfits hstops => ⟨none, ?_⟩
  simp only [Expr.Fits, Expr.Stops] at hfits hstops
  simp only [Expr.rest, Expr.fault?, Expr.gen, List.append_assoc, List.cons_append]
  rw [← Option.or_none (o := cls.fault?)]
  refine takes_class h hfits hstops.2.2 hstops.1 hpath ?_
  refine takes_emitAt.andThen (takes_next.andThen ?_)
  rw [if_neg hstops.2.1]
  exact takes_pushBack.andThen takes_last

theorem leads_freshWith {N : Nat} (hp : ∀ e : Expr, e.size < N → Parses s₀ p e)
    (hbudget : N ≤ p.budget) {cls : Expr} {path : List PathStep} {args : Items}
    (hcls : cls.size < N) (hpath : path.length < N) (hargs : args.tokens.length < N)
    (place opening closing : Position) :
    Leads s₀ p (.freshWith place cls path opening args closing) := by
  refine leads_of_leading fun power d c pl t ts hfits _ => ⟨some closing, ?_⟩
  simp only [Expr.Fits] at hfits
  simp only [Expr.rest, Expr.fault?, Expr.gen, List.append_assoc, List.cons_append, List.nil_append]
  refine takes_class (hp cls hcls) hfits.1 hfits.2.1 (by simp) (by omega) ?_
  refine takes_emitAt.andThen (takes_next.andThen ?_)
  exact (takes_arguments hp hfits.2.2.1 hfits.2.2.2 hargs hbudget).finish takes_last

/-! ## Continuations -/

theorem compound_not_binary {kind : Token.Kind} {op : Op} (h : kind.compoundOp? = some op) :
    kind.binaryOp? = none := by
  rcases kind with _ | _ | _ | word | sign | _ <;> try cases h
  cases sign <;> first | rfl | cases h

theorem leads_binary {l r : Expr} (hl : Leads s₀ p l) (hr : Parses s₀ p r) (op : BinaryOp)
    (place : Position) : Leads s₀ p (.binary l op place r) := by
  refine leads_of_trailing ⟨op.kind, place⟩ r.fault? hl rfl (by rw [Expr.rest])
    (by rw [Expr.fault?]) (fun power hfits => ?_) fun power d c t ts hfits hstops => ⟨none, ?_⟩
  · simp only [Expr.Fits] at hfits
    exact ⟨hfits.1, hfits.2.1, hfits.2.2.1⟩
  · simp only [Expr.Fits, Expr.Stops] at hfits hstops
    simp only [Expr.gen, trailing, op.binary, List.cons_append]
    exact (hr.parse hfits.2.2.2 hstops.2 hstops.1).finish takes_last

theorem leads_comma {l r : Expr} (hl : Leads s₀ p l) (hr : Parses s₀ p r) (place : Position) :
    Leads s₀ p (.comma l place r) := by
  refine leads_of_trailing ⟨.mark .comma, place⟩ r.fault? hl rfl (by rw [Expr.rest])
    (by rw [Expr.fault?]) (fun power hfits => ?_) fun power d c t ts hfits hstops => ⟨none, ?_⟩
  · simp only [Expr.Fits] at hfits
    exact ⟨hfits.1, hfits.2.1, hfits.2.2.1⟩
  · simp only [Expr.Fits, Expr.Stops] at hfits hstops
    simp only [Expr.gen, Expr.result, Expr.operand, List.cons_append]
    exact hr.parse hfits.2.2.2 hstops.2 hstops.1

theorem leads_logic {l r : Expr} (hl : Leads s₀ p l) (hr : Parses s₀ p r) (op : LogicOp)
    (place : Position) : Leads s₀ p (.logic l op place r) := by
  refine leads_of_trailing ⟨op.kind, place⟩ r.fault? hl rfl (by rw [Expr.rest])
    (by rw [Expr.fault?]) (fun power hfits => ?_) fun power d c t ts hfits hstops => ⟨none, ?_⟩
  · simp only [Expr.Fits] at hfits
    exact ⟨hfits.1, hfits.2.1, hfits.2.2.1⟩
  · simp only [Expr.Fits, Expr.Stops] at hfits hstops
    simp only [Expr.gen, List.cons_append]
    cases op <;> exact takes_emitAt.andThen ((hr.parse hfits.2.2.2 hstops.2 hstops.1).finish
      (takes_emitAt.andThen (takes_emitAt.andThen
        (takes_land (takes_emitAt.andThen (takes_land (.pure _)))))))

theorem leads_ternary {e a b : Expr} (he : Leads s₀ p e) (ha : Parses s₀ p a) (hb : Parses s₀ p b)
    (question colon : Position) : Leads s₀ p (.ternary e question a colon b) := by
  refine leads_of_trailing ⟨.mark .question, question⟩ (a.fault?.or b.fault?) he rfl
    (by rw [Expr.rest]) (by rw [Expr.fault?]) (fun power hfits => ?_)
    fun power d c t ts hfits hstops => ⟨none, ?_⟩
  · simp only [Expr.Fits] at hfits
    exact ⟨hfits.1, hfits.2.1, hfits.2.2.1⟩
  · simp only [Expr.Fits, Expr.Stops] at hfits hstops
    simp only [Expr.gen, List.cons_append, List.append_assoc]
    refine takes_emitAt.andThen ((ha.parse hfits.2.2.2.1 hfits.2.2.2.2.1 (Nat.zero_le _)).bind ?_)
    refine takes_expect.andThen (takes_emitAt.andThen (takes_land ?_))
    exact (hb.parse hfits.2.2.2.2.2 hstops.2 hstops.1).finish (takes_land (.pure _))

theorem leads_dot {e : Expr} (he : Leads s₀ p e) (place behind : Position) (s : String) :
    Leads s₀ p (.dot e place behind s) := by
  refine leads_of_trailing ⟨.mark .dot, place⟩ none he rfl (by rw [Expr.rest])
    (by rw [Expr.fault?, Option.or_none]) (fun power hfits => ?_)
    fun power d c t ts hfits _ => ⟨some behind, ?_⟩
  · simp only [Expr.Fits] at hfits
    exact hfits
  · have hload : (e.gen s₀.names d c).size + 2 - 1 = (e.gen s₀.names d c).size + 1 := rfl
    simp only [Expr.gen, Expr.result, Expr.operand, Draft.size_select, hload, List.cons_append,
      List.nil_append]
    exact takes_dotMember

theorem leads_index {e key : Expr} (he : Leads s₀ p e) (hk : Parses s₀ p key)
    (opening closing : Position) : Leads s₀ p (.index e opening key closing) := by
  refine leads_of_trailing ⟨.mark .lBracket, opening⟩ key.fault? he rfl
    (by rw [Expr.rest]) (by rw [Expr.fault?]) (fun power hfits => ?_)
    fun power d c t ts hfits _ => ⟨some closing, ?_⟩
  · simp only [Expr.Fits] at hfits
    exact ⟨hfits.1, hfits.2.1, hfits.2.2.1⟩
  · simp only [Expr.Fits] at hfits
    simp only [Expr.gen, Expr.result, Expr.operand, Draft.size_emit, Nat.add_sub_cancel,
      List.cons_append, List.append_assoc, List.nil_append]
    exact (hk.parse hfits.2.2.2.1 hfits.2.2.2.2 (Nat.zero_le _)).finish
      (takes_expect.andThen (takes_emitAt.andThen (.pure _)))

theorem leads_call {N : Nat} (hp : ∀ e : Expr, e.size < N → Parses s₀ p e) (hbudget : N ≤ p.budget)
    {e : Expr} (he : Leads s₀ p e) {args : Items} (hargs : args.tokens.length < N)
    (opening closing : Position) : Leads s₀ p (.call e opening args closing) := by
  refine leads_of_trailing ⟨.mark .lParen, opening⟩ args.fault? he rfl
    (by rw [Expr.rest]) (by rw [Expr.fault?]) (fun power hfits => ?_)
    fun power d c t ts hfits _ => ⟨some closing, ?_⟩
  · simp only [Expr.Fits] at hfits
    exact ⟨hfits.1, hfits.2.1, hfits.2.2.1⟩
  · simp only [Expr.Fits] at hfits
    simp only [Expr.gen, List.cons_append, List.append_assoc, List.nil_append]
    exact (takes_arguments hp hfits.2.2.2.1 hfits.2.2.2.2 hargs hbudget).finish
      (takes_emit.andThen (.pure _))

/-! ## Operators with a target -/

section

variable {target : Expr} {d : Int} {c : Draft} {pl : Option Position} {t : Token} {ts : List Token}

theorem takes_assign (he : Parses s₀ p e) (hfits : e.Fits (Power.assignment - 1))
    (hstops : e.Stops t.kind) (hpower : t.kind.leftPower ≤ Power.assignment - 1) (op : AssignOp)
    (place : Position) :
    Takes s₀ ⟨target.gen s₀.names d c, pl, e.first :: (e.rest ++ t :: ts)⟩
      (assign p (target.result s₀.names d c) op.op? d place)
      (if target.isTarget then e.fault? else some place) .temp
      ⟨(Expr.assign target op place e).gen s₀.names d c, none, t :: ts⟩ := by
  have hparse : ∀ r c, Takes s₀ ⟨c, pl, e.first :: (e.rest ++ t :: ts)⟩
      (parse p (Power.assignment - 1) r) e.fault? (e.result s₀.names r c)
      ⟨e.gen s₀.names r c, none, t :: ts⟩ := fun _ _ => he.parse hfits hstops hpower
  rw [target.isTarget_eq s₀.names d ((target.gen s₀.names d c).size - 1)]
  simp only [Expr.gen, Expr.result]
  rcases target.operand s₀.names d ((target.gen s₀.names d c).size - 1) with
    _ | ⟨register, load⟩ | ⟨receiver, key, load⟩ | _ <;> rcases op.op? with _ | op
  · exact .fail
  · exact .fail
  · exact takes_erase.andThen ((hparse _ _).finish takes_last)
  · exact (hparse _ _).finish (takes_emitAt.andThen takes_last)
  · exact takes_erase.andThen ((hparse _ _).finish (takes_emitAt.andThen takes_last))
  · exact takes_retarget.andThen
      ((hparse _ _).finish (takes_emitAt.andThen (takes_emitAt.andThen takes_last)))
  · exact .fail
  · exact .fail

end

section

variable {t : Token}

theorem trailing_assign {op : AssignOp} (ht : t.kind = op.kind) (left : Operand) (dest : Int) :
    trailing p t left dest = assign p left op.op? dest t.position := by
  rcases op with _ | ⟨kind, o, ho⟩ <;> unfold trailing <;> rw [ht]
  · rfl
  · simp only [AssignOp.kind, compound_not_binary ho, ho, AssignOp.op?]

theorem trailing_step {op : StepOp} (ht : t.kind = op.kind) (left : Operand) (dest : Int) :
    trailing p t left dest = stepAfter left op.after dest t.position := by
  unfold trailing
  rw [ht]
  cases op <;> rfl

theorem leading_step {op : StepOp} (ht : t.kind = op.kind) (power : Nat) (dest : Int) :
    leading p t power dest = stepBefore p op.before dest t.position := by
  unfold leading
  rw [ht]
  cases op <;> rfl

theorem leading_delete (ht : t.kind = .keyword .delete) (power : Nat) (dest : Int) :
    leading p t power dest = delete p dest t.position := by
  unfold leading
  rw [ht]
  rfl

end

theorem leads_assign {target : Expr} (htarget : Leads s₀ p target) (he : Parses s₀ p e)
    (op : AssignOp) (place : Position) : Leads s₀ p (.assign target op place e) := by
  refine leads_of_trailing ⟨op.kind, place⟩ (if target.isTarget then e.fault? else some place)
    htarget rfl (by rw [Expr.rest]) (by rw [Expr.fault?]) (fun power hfits => ?_)
    fun power d c t ts hfits hstops => ⟨none, ?_⟩
  · simp only [Expr.Fits] at hfits
    exact ⟨by rw [op.leftPower]; exact hfits.1, hfits.2.1, hfits.2.2.1⟩
  · simp only [Expr.Fits, Expr.Stops] at hfits hstops
    rw [trailing_assign rfl]
    exact takes_assign he hfits.2.2.2 hstops.2 hstops.1 op place

theorem leads_stepBefore {target : Expr} (h : Parses s₀ p target) (op : StepOp)
    (place : Position) : Leads s₀ p (.stepBefore op place target) := by
  refine leads_of_leading fun power d c pl t ts hfits hstops => ⟨none, ?_⟩
  simp only [Expr.Fits, Expr.Stops] at hfits hstops
  have hparse : Takes s₀ ⟨c, pl, target.first :: (target.rest ++ t :: ts)⟩ (parse p Power.unary d)
      target.fault? (target.result s₀.names d c) ⟨target.gen s₀.names d c, none, t :: ts⟩ :=
    h.parse hfits hstops.2 hstops.1
  rw [leading_step (show (Expr.stepBefore op place target).first.kind = op.kind from rfl), Expr.fault?,
    target.isTarget_eq s₀.names d ((target.gen s₀.names d c).size - 1)]
  refine hparse.bind ?_
  simp only [Expr.gen, Expr.result]
  rcases target.operand s₀.names d ((target.gen s₀.names d c).size - 1) with
    _ | ⟨register, load⟩ | ⟨receiver, key, load⟩ | _
  · exact .fail
  · exact takes_erase.andThen takes_last
  · exact takes_retarget.andThen (takes_emitAt.andThen (takes_emitAt.andThen takes_last))
  · exact .fail

theorem leads_stepAfter {target : Expr} (htarget : Leads s₀ p target) (op : StepOp)
    (place : Position) : Leads s₀ p (.stepAfter target op place) := by
  refine leads_of_trailing ⟨op.kind, place⟩ (if target.isTarget then none else some place)
    htarget rfl (by rw [Expr.rest]) (by rw [Expr.fault?]) (fun power hfits => ?_)
    fun power d c t ts hfits hstops => ⟨some place, ?_⟩
  · simp only [Expr.Fits] at hfits
    exact ⟨by rw [op.leftPower]; exact hfits.1, hfits.2.1, hfits.2.2⟩
  · rw [trailing_step (show (⟨op.kind, place⟩ : Token).kind = op.kind from rfl),
      target.isTarget_eq s₀.names d ((target.gen s₀.names d c).size - 1)]
    simp only [Expr.gen, Expr.result]
    rcases target.operand s₀.names d ((target.gen s₀.names d c).size - 1) with
      _ | ⟨register, load⟩ | ⟨receiver, key, load⟩ | _
    · exact .fail
    · exact takes_erase.andThen takes_last
    · exact takes_retarget.andThen (takes_emitAt.andThen (takes_emitAt.andThen takes_last))
    · exact .fail

theorem leads_delete {target : Expr} (h : Parses s₀ p target) (place : Position) :
    Leads s₀ p (.delete place target) := by
  refine leads_of_leading fun power d c pl t ts hfits hstops => ⟨none, ?_⟩
  simp only [Expr.Fits, Expr.Stops] at hfits hstops
  have hparse : Takes s₀ ⟨c, pl, target.first :: (target.rest ++ t :: ts)⟩ (parse p Power.convert d)
      target.fault? (target.result s₀.names d c) ⟨target.gen s₀.names d c, none, t :: ts⟩ :=
    h.parse hfits hstops.2 hstops.1
  rw [Expr.fault?, target.isTarget_eq s₀.names d ((target.gen s₀.names d c).size - 1)]
  refine hparse.bind ?_
  simp only [Expr.gen, Expr.result]
  rcases target.operand s₀.names d ((target.gen s₀.names d c).size - 1) with
    _ | ⟨register, load⟩ | ⟨receiver, key, load⟩ | _
  · exact .fail
  · exact takes_erase.andThen (takes_emitAt.andThen takes_last)
  · exact (takes_modifyChunk (F := (·.modifyAt load _)) fun _ => rfl).andThen takes_last
  · exact .fail

/-! ## Trees -/

/-- Reading leads to the end of every expression, if shorter ones can be read one level deeper. -/
theorem leads {n : Nat} (hp : ∀ e : Expr, e.size < n → Parses s₀ (productions n) e) :
    ∀ e : Expr, e.size ≤ n → Leads s₀ (productions n) e
  | .number place x, _ => leads_number place x
  | .text place s, _ => leads_text place s
  | .truth place b, _ => leads_truth place b
  | .this place, _ => leads_this place
  | .global place, _ => leads_global place
  | .name place s, _ => leads_name place s
  | .paren opening e closing, h => by
    simp only [Expr.size, Expr.rest, List.length_cons, List.length_append] at h
    exact leads_paren (hp e (by unfold Expr.size; omega)) opening closing
  | .cast opening word place closing e, h => by
    simp only [Expr.size, Expr.rest, List.length_cons] at h
    exact leads_cast (hp e (by unfold Expr.size; omega)) opening place closing word
  | .unary op place e, h => by
    simp only [Expr.size, Expr.rest, List.length_cons] at h
    exact leads_unary (hp e (by unfold Expr.size; omega)) op place
  | .array opening items closing, h => by
    simp only [Expr.size, Expr.rest, List.length_cons, List.length_append] at h
    exact leads_array hp (le_refl n) (by omega) opening closing
  | .dict opening entries closing, h => by
    simp only [Expr.size, Expr.rest, List.length_cons, List.length_append] at h
    exact leads_dict hp (le_refl n) (by omega) opening closing
  | .fresh place cls path, h => by
    have hpath := length_path path
    simp only [Expr.size, Expr.rest, List.length_cons, List.length_append] at h
    exact leads_fresh (hp cls (by unfold Expr.size; omega)) (show path.length < n by omega) place
  | .freshWith place cls path opening args closing, h => by
    have hpath := length_path path
    simp only [Expr.size, Expr.rest, List.length_cons, List.length_append] at h
    exact leads_freshWith hp (le_refl n) (by unfold Expr.size; omega) (by omega) (by omega) place
      opening closing
  | .binary l op place r, h => by
    simp only [Expr.size, Expr.rest, List.length_cons, List.length_append] at h
    exact leads_binary (leads hp l (by unfold Expr.size; omega))
      (hp r (by unfold Expr.size; omega)) op place
  | .logic l op place r, h => by
    simp only [Expr.size, Expr.rest, List.length_cons, List.length_append] at h
    exact leads_logic (leads hp l (by unfold Expr.size; omega))
      (hp r (by unfold Expr.size; omega)) op place
  | .comma l place r, h => by
    simp only [Expr.size, Expr.rest, List.length_cons, List.length_append] at h
    exact leads_comma (leads hp l (by unfold Expr.size; omega))
      (hp r (by unfold Expr.size; omega)) place
  | .ternary e question a colon b, h => by
    simp only [Expr.size, Expr.rest, List.length_cons, List.length_append] at h
    exact leads_ternary (leads hp e (by unfold Expr.size; omega))
      (hp a (by unfold Expr.size; omega)) (hp b (by unfold Expr.size; omega)) question colon
  | .dot e place behind s, h => by
    simp only [Expr.size, Expr.rest, List.length_cons, List.length_append] at h
    exact leads_dot (leads hp e (by unfold Expr.size; omega)) place behind s
  | .index e opening key closing, h => by
    simp only [Expr.size, Expr.rest, List.length_cons, List.length_append] at h
    exact leads_index (leads hp e (by unfold Expr.size; omega))
      (hp key (by unfold Expr.size; omega)) opening closing
  | .call e opening args closing, h => by
    simp only [Expr.size, Expr.rest, List.length_cons, List.length_append] at h
    exact leads_call hp (le_refl n) (leads hp e (by unfold Expr.size; omega)) (by omega) opening
      closing
  | .assign target op place e, h => by
    simp only [Expr.size, Expr.rest, List.length_cons, List.length_append] at h
    exact leads_assign (leads hp target (by unfold Expr.size; omega))
      (hp e (by unfold Expr.size; omega)) op place
  | .stepBefore op place target, h => by
    simp only [Expr.size, Expr.rest, List.length_cons] at h
    exact leads_stepBefore (hp target (by unfold Expr.size; omega)) op place
  | .stepAfter target op place, h => by
    simp only [Expr.size, Expr.rest, List.length_cons, List.length_append] at h
    exact leads_stepAfter (leads hp target (by unfold Expr.size; omega)) op place
  | .delete place target, h => by
    simp only [Expr.size, Expr.rest, List.length_cons] at h
    exact leads_delete (hp target (by unfold Expr.size; omega)) place

/-- The grammar makes the code of every tree that has fewer tokens than there are levels. -/
theorem parses (n : Nat) : ∀ e : Expr, e.size < n → Parses s₀ (productions n) e := by
  induction n with
  | zero => exact fun e h => absurd h (Nat.not_lt_zero _)
  | succ n ih =>
    intro e h
    have hsize : e.size ≤ n := Nat.le_of_lt_succ h
    exact (leads ih e hsize).parses hsize

end Compile

end ScriptEngine
