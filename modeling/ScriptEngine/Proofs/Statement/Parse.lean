import ScriptEngine.Proofs.Statement.Drawing

/-!
# The compiler lays statements out

The tokens of a statement that fits are read as that statement, and its code is a sketch of a plan
of it (`Stmt.reads`). Where there is no loop around a statement, its first `break` or `continue`
that is not in a loop of its own is refused.

`Ends m s fault Q` is the rule of a step of a compilation in a state: it succeeds and `Q` holds, or
if there is a fault, it refuses a word that leaves a loop.
-/

namespace ScriptEngine

/-! ## Steps -/

/-- A compilation is in front of tokens, and makes the code of a function. -/
structure CompileState.Sees (s : CompileState) (kinds : List Token.Kind) (f : FunctionState) :
    Prop where
  lexer : s.lexer.Shows kinds
  current : s.current = f

namespace Compile

/-- How a step ends; see the head of the module. -/
def Ends {α : Type} (m : Compile α) (s : CompileState) (fault : Option Keyword)
    (Q : α → CompileState → Prop) : Prop :=
  match fault with
  | none => ∃ a s', m s = .ok a s' ∧ Q a s'
  | some word => ∃ place s', m s = .error (.error (.grammar (.outsideLoop word) place)) s'

namespace Ends

variable {α β : Type} {m : Compile α} {k : α → Compile β} {s : CompileState}
  {φ ψ : Option Keyword} {Q Q' : α → CompileState → Prop} {R : β → CompileState → Prop}

theorem pure {a : α} (h : Q a s) : Ends (pure a) s none Q :=
  ⟨a, s, rfl, h⟩

theorem bind (hm : Ends m s φ Q) (hk : ∀ a s', Q a s' → Ends (k a) s' ψ R) :
    Ends (m >>= k) s (φ.or ψ) R := by
  rcases φ with _ | word
  · obtain ⟨a, s₁, h₁, hQ⟩ := hm
    have hks := hk a s₁ hQ
    rcases ψ with _ | word
    · obtain ⟨b, s₂, h₂, hR⟩ := hks
      exact ⟨b, s₂, by rw [bind_apply, h₁]; exact h₂, hR⟩
    · obtain ⟨place, s₂, h₂⟩ := hks
      exact ⟨place, s₂, by rw [bind_apply, h₁]; exact h₂⟩
  · obtain ⟨place, s₁, h₁⟩ := hm
    exact ⟨place, s₁, by rw [bind_apply, h₁]⟩

/-- A step without a fault comes first. -/
theorem andThen (hm : Ends m s none Q) (hk : ∀ a s', Q a s' → Ends (k a) s' ψ R) :
    Ends (m >>= k) s ψ R :=
  hm.bind hk

/-- A step without a fault comes last. -/
theorem finish (hm : Ends m s φ Q) (hk : ∀ a s', Q a s' → Ends (k a) s' none R) :
    Ends (m >>= k) s φ R := by
  have h := hm.bind hk
  rwa [Option.or_none] at h

theorem mono (hm : Ends m s φ Q) (h : ∀ a s', Q a s' → Q' a s') : Ends m s φ Q' := by
  rcases φ with _ | word
  · obtain ⟨a, s₁, h₁, hQ⟩ := hm
    exact ⟨a, s₁, h₁, h a s₁ hQ⟩
  · exact hm

end Ends

variable {s : CompileState} {kind behind : Token.Kind} {kinds : List Token.Kind}
  {f : FunctionState}

theorem ends_next (hs : s.Sees (kind :: kinds) f) : Ends next s none fun t s' =>
    t.kind = kind ∧ s'.Sees kinds f ∧ s'.lexer.pushed = none := by
  obtain ⟨t, l, hl, ht, hkinds⟩ := hs.lexer
  refine ⟨t, { s with lexer := l, position := t.position }, ?_, ht, ⟨hkinds, hs.current⟩,
    Lexer.pushed_next hl⟩
  rw [next_apply, hl]

theorem ends_pushBack (hs : s.Sees kinds f) (hpushed : s.lexer.pushed = none) (t : Token) :
    Ends (pushBack t) s none fun _ s' => s'.Sees (t.kind :: kinds) f :=
  ⟨(), _, rfl, hs.lexer.pushBack hpushed t, hs.current⟩

theorem ends_expect (hs : s.Sees (kind :: kinds) f) :
    Ends (expect kind) s none fun _ s' => s'.Sees kinds f := by
  refine (ends_next hs).andThen fun t s₁ ⟨ht, hs₁, _⟩ => ?_
  rw [if_pos ht]
  exact .pure hs₁

theorem ends_here (hs : s.Sees kinds f) :
    Ends here s none fun n s' => n = f.size ∧ s'.Sees kinds f :=
  ⟨_, s, rfl, by rw [← hs.current]; rfl, hs⟩

theorem ends_emitAt (hs : s.Sees kinds f) (place : Position) (op : Op) (x y z : Int) :
    Ends (emitAt place op x y z) s none fun n s' =>
      n = f.size ∧ s'.Sees kinds (f.add ⟨op, x, y, z, place⟩) := by
  obtain ⟨hlexer, rfl⟩ := hs
  exact ⟨_, _, emitAt_apply place op x y z s, rfl, hlexer, rfl⟩

theorem ends_emit (hs : s.Sees kinds f) (op : Op) (x y z : Int) :
    Ends (emit op x y z) s none fun n s' =>
      n = f.size ∧ ∃ place, s'.Sees kinds (f.add ⟨op, x, y, z, place⟩) :=
  (ends_emitAt hs s.position op x y z).mono fun _ _ h => ⟨h.1, s.position, h.2⟩

theorem ends_modifyCurrent (hs : s.Sees kinds f) (g : FunctionState → FunctionState) :
    Ends (modifyCurrent g) s none fun _ s' => s'.Sees kinds (g f) := by
  obtain ⟨hlexer, rfl⟩ := hs
  exact ⟨(), _, rfl, hlexer, rfl⟩

theorem ends_patch (hs : s.Sees kinds f) (n target : Nat) :
    Ends (patch n target) s none fun _ s' => s'.Sees kinds (f.aim [n] target) :=
  ends_modifyCurrent hs (·.aim [n] target)

end Compile

/-- A step reads a statement wherever it stands. -/
def Stmt.ReadBy (t : Stmt Phrase) (m : Compile Unit) : Prop :=
  ∀ (s : CompileState) (f : FunctionState) (behind : Token.Kind) (kinds : List Token.Kind),
    t.stops behind = true → s.Sees (t.kinds ++ behind :: kinds) f →
      Compile.Ends m s (f.fault? t.loose) fun _ s' =>
        ∃ f', s'.Sees (behind :: kinds) f' ∧ t.Drawn f f'

namespace Compile

variable {s : CompileState} {behind : Token.Kind} {kinds : List Token.Kind} {f : FunctionState}
  {n : Nat}

/-! ## Expressions -/

theorem ends_phrase {e : Phrase} {power : Nat} {t : Token} (he : e.Reads power)
    (hn : e.kinds.length < n) (ht : t.kind = e.first) (hs : s.Sees (e.rest ++ behind :: kinds) f)
    (hbehind : isTerminator behind = true ∨ Power.expression ≤ power ∧ behind = .mark .rParen) :
    Ends (expressionWithin n t power resultRegister) s none fun left s' =>
      left ≠ .done ∧ ∃ f', s'.Sees (behind :: kinds) f' ∧ e.Drawn f f' := by
  obtain ⟨hlexer, rfl⟩ := hs
  obtain ⟨left, s', hreads, hdone, hshows⟩ := he n s t behind kinds hn ht hlexer hbehind
  obtain ⟨hgrown, -⟩ := yields_expressionWithin n t power resultRegister
    (fun h => by rw [ht] at h ⊢; exact e.opens.1 h) s (.refl _) left s' hreads
  refine ⟨left, s', hreads, hdone, s'.current, ⟨hshows, rfl⟩, hgrown.loops, hgrown.size,
    hgrown.code, by simp, fun code τ hc => ?_⟩
  exact .of ht hlexer hreads hshows rfl rfl fun i hi hlt => hc.same i hi hlt List.not_mem_nil

theorem ends_parse {e : Phrase} (he : e.Reads Power.expression) (hn : e.kinds.length < n)
    (hs : s.Sees (e.kinds ++ behind :: kinds) f)
    (hbehind : isTerminator behind = true ∨ behind = .mark .rParen) :
    Ends (parse (productions n) Power.expression resultRegister) s none fun _ s' =>
      ∃ f', s'.Sees (behind :: kinds) f' ∧ e.Drawn f f' := by
  refine (ends_next hs).andThen fun t s₁ ⟨ht, hs₁, _⟩ => ?_
  exact (ends_phrase he hn ht hs₁ (hbehind.imp id fun h => ⟨le_refl _, h⟩)).mono fun _ _ h => h.2

theorem ends_condition {e : Phrase} (he : e.Reads Power.expression) (hn : e.kinds.length < n)
    (hs : s.Sees (.mark .lParen :: (e.kinds ++ .mark .rParen :: kinds)) f) :
    Ends (condition (productions n) resultRegister) s none fun _ s' =>
      ∃ f', s'.Sees kinds f' ∧ e.Drawn f f' := by
  refine (ends_expect hs).andThen fun _ s₁ hs₁ => ?_
  refine (ends_parse he hn hs₁ (.inr rfl)).andThen fun _ s₂ ⟨f', hs₂, hdrawn⟩ => ?_
  exact (ends_expect hs₂).mono fun _ _ h => ⟨f', h, hdrawn⟩

/-! ## Choices -/

variable {test : Phrase} {body other : Stmt Phrase}

theorem ends_ifThen (htest : test.Reads Power.expression) (hn : test.kinds.length < n)
    (hbody : body.ReadBy (statementWithin n)) (hstops : (Stmt.ifThen test body).stops behind = true)
    (hs : s.Sees (.mark .lParen :: (test.kinds ++ .mark .rParen :: (body.kinds ++ behind :: kinds)))
      f) :
    Ends (ifStatement (productions n) resultRegister) s (f.fault? body.loose) fun left s' =>
      left = .done ∧ ∃ f', s'.Sees (behind :: kinds) f' ∧ (Stmt.ifThen test body).Drawn f f' := by
  simp only [Stmt.stops, Bool.and_eq_true, decide_eq_true_eq] at hstops
  refine (ends_condition htest hn hs).andThen fun _ s₁ ⟨f₁, hs₁, htest⟩ => ?_
  refine (ends_emit hs₁ _ _ _ _).andThen fun skip s₂ ⟨hskip, place, hs₂⟩ => ?_
  subst hskip
  have hread := hbody s₂ _ behind kinds hstops.2 hs₂
  rw [FunctionState.fault?_add, FunctionState.fault?_congr htest.loops] at hread
  refine hread.finish fun _ s₃ ⟨f₂, hs₃, hbody⟩ => ?_
  refine (ends_next hs₃).andThen fun t s₄ ⟨ht, hs₄, hpushed⟩ => ?_
  rw [if_neg (ht ▸ hstops.1)]
  refine (ends_pushBack hs₄ hpushed t).andThen fun _ s₅ hs₅ => ?_
  refine (ends_here hs₅).andThen fun _ s₆ ⟨hhere, hs₆⟩ => ?_
  subst hhere
  exact (ends_patch hs₆ _ _).andThen fun _ s₇ hs₇ =>
    .pure ⟨rfl, _, ht ▸ hs₇, Stmt.drawn_ifThen htest hbody⟩

theorem ends_ifElse (htest : test.Reads Power.expression) (hn : test.kinds.length < n)
    (hbody : body.ReadBy (statementWithin n)) (helse : body.stops (.keyword .elseWord) = true)
    (hother : other.ReadBy (statementWithin n)) (hstops : other.stops behind = true)
    (hs : s.Sees (.mark .lParen :: (test.kinds ++ .mark .rParen :: (body.kinds ++
      .keyword .elseWord :: (other.kinds ++ behind :: kinds)))) f) :
    Ends (ifStatement (productions n) resultRegister) s (f.fault? (body.loose.or other.loose))
      fun left s' => left = .done ∧ ∃ f', s'.Sees (behind :: kinds) f' ∧
        (Stmt.ifElse test body other).Drawn f f' := by
  refine (ends_condition htest hn hs).andThen fun _ s₁ ⟨f₁, hs₁, htest⟩ => ?_
  refine (ends_emit hs₁ _ _ _ _).andThen fun skip s₂ ⟨hskip, place, hs₂⟩ => ?_
  subst hskip
  have hread := hbody s₂ _ _ _ helse hs₂
  rw [FunctionState.fault?_add, FunctionState.fault?_congr htest.loops] at hread
  rw [FunctionState.fault?_or]
  refine hread.bind fun _ s₃ ⟨f₂, hs₃, hbody⟩ => ?_
  refine (ends_next hs₃).andThen fun t s₄ ⟨ht, hs₄, _⟩ => ?_
  rw [if_pos ht]
  refine (ends_emit hs₄ _ _ _ _).andThen fun exit s₅ ⟨hexit, place', hs₅⟩ => ?_
  subst hexit
  refine (ends_here hs₅).andThen fun _ s₆ ⟨hhere, hs₆⟩ => ?_
  subst hhere
  refine (ends_patch hs₆ _ _).andThen fun _ s₇ hs₇ => ?_
  have hread' := hother s₇ _ behind kinds hstops hs₇
  rw [FunctionState.fault?_aim, FunctionState.fault?_add, hbody.fault?, FunctionState.fault?_add,
    FunctionState.fault?_congr htest.loops] at hread'
  refine hread'.finish fun _ s₈ ⟨f₃, hs₈, hother⟩ => ?_
  refine (ends_here hs₈).andThen fun _ s₉ ⟨hhere, hs₉⟩ => ?_
  subst hhere
  rw [FunctionState.size_add] at hother
  exact (ends_patch hs₉ _ _).andThen fun _ s₁₀ hs₁₀ =>
    .pure ⟨rfl, _, hs₁₀, Stmt.drawn_ifElse htest hbody hother⟩

/-! ## Loops -/

theorem ends_openLoop (hs : s.Sees kinds f) :
    Ends openLoop s none fun _ s' => s'.Sees kinds f.enter :=
  ends_modifyCurrent hs (·.enter)

theorem ends_closeLoop (hs : s.Sees kinds f) (exit resume : Nat) :
    Ends (closeLoop exit resume) s none fun _ s' => s'.Sees kinds (f.close exit resume) :=
  ends_modifyCurrent hs (·.close exit resume)

theorem ends_while (htest : test.Reads Power.expression) (hn : test.kinds.length < n)
    (hbody : body.ReadBy (statementWithin n)) (hstops : body.stops behind = true)
    (hs : s.Sees (.mark .lParen :: (test.kinds ++ .mark .rParen :: (body.kinds ++ behind :: kinds)))
      f) :
    Ends (whileStatement (productions n) resultRegister) s none fun left s' =>
      left = .done ∧ ∃ f', s'.Sees (behind :: kinds) f' ∧ (Stmt.whileLoop test body).Drawn f f' := by
  refine (ends_here hs).andThen fun _ s₀ ⟨htop, hs₀⟩ => ?_
  subst htop
  refine (ends_condition htest hn hs₀).andThen fun _ s₁ ⟨f₁, hs₁, htest⟩ => ?_
  refine (ends_emit hs₁ _ _ _ _).andThen fun exit s₂ ⟨hexit, place, hs₂⟩ => ?_
  subst hexit
  refine (ends_openLoop hs₂).andThen fun _ s₃ hs₃ => ?_
  refine (hbody s₃ _ behind kinds hstops hs₃).andThen fun _ s₄ ⟨f₂, hs₄, hbody⟩ => ?_
  refine (ends_emit hs₄ _ _ _ _).andThen fun _ s₅ ⟨_, place', hs₅⟩ => ?_
  refine (ends_here hs₅).andThen fun behind s₆ ⟨hbehind, hs₆⟩ => ?_
  rw [FunctionState.size_add] at hbehind
  subst hbehind
  refine (ends_patch hs₆ _ _).andThen fun _ s₇ hs₇ => ?_
  exact (ends_closeLoop hs₇ _ _).andThen fun _ s₈ hs₈ =>
    .pure ⟨rfl, _, hs₈, Stmt.drawn_while htest hbody⟩

theorem ends_do (hbody : body.ReadBy (statementWithin n))
    (hwhile : body.stops (.keyword .whileWord) = true) (htest : test.Reads Power.expression)
    (hn : test.kinds.length < n) (closed : Bool)
    (hs : s.Sees (body.kinds ++ .keyword .whileWord :: .mark .lParen :: (test.kinds ++
      .mark .rParen :: kinds)) f) :
    Ends (doStatement (productions n) resultRegister) s none fun left s' =>
      left = .temp ∧ ∃ f', s'.Sees kinds f' ∧ (Stmt.doLoop body test closed).Drawn f f' := by
  refine (ends_here hs).andThen fun _ s₀ ⟨htop, hs₀⟩ => ?_
  subst htop
  refine (ends_openLoop hs₀).andThen fun _ s₁ hs₁ => ?_
  refine (hbody s₁ _ _ _ hwhile hs₁).andThen fun _ s₂ ⟨f₁, hs₂, hbody⟩ => ?_
  refine (ends_expect hs₂).andThen fun _ s₃ hs₃ => ?_
  refine (ends_here hs₃).andThen fun _ s₄ ⟨hcheck, hs₄⟩ => ?_
  subst hcheck
  refine (ends_condition htest hn hs₄).andThen fun _ s₅ ⟨f₂, hs₅, htest⟩ => ?_
  refine (ends_emit hs₅ _ _ _ _).andThen fun _ s₆ ⟨_, place, hs₆⟩ => ?_
  refine (ends_here hs₆).andThen fun _ s₇ ⟨hexit, hs₇⟩ => ?_
  rw [FunctionState.size_add] at hexit
  subst hexit
  exact (ends_closeLoop hs₇ _ _).andThen fun _ s₈ hs₈ =>
    .pure ⟨rfl, _, hs₈, Stmt.drawn_do hbody htest closed⟩

/-- Declarations end in front of a token that ends a statement, which is given back. -/
theorem pushed_of_declarations {p : Productions} {dest : Int} {fuel : Nat} {left : Operand}
    {s s' : CompileState} (h : declarations p dest fuel s = .ok left s') :
    ∃ t, s'.lexer.pushed = some t ∧ isTerminator t.kind = true := by
  induction fuel generalizing s with
  | zero => cases h
  | succ fuel ih =>
    obtain ⟨_, _, -, h⟩ := bind_eq_ok h
    obtain ⟨_, _, -, h⟩ := bind_eq_ok h
    obtain ⟨_, _, -, h⟩ := bind_eq_ok h
    obtain ⟨_, _, -, h⟩ := bind_eq_ok h
    obtain ⟨_, _, -, h⟩ := bind_eq_ok h
    obtain ⟨t, s₁, -, h⟩ := bind_eq_ok h
    split at h
    · exact ih h
    · split at h
      · rename_i hend
        cases h
        exact ⟨t, rfl, hend⟩
      · cases h

theorem leftPower_of_terminator {kind : Token.Kind} (h : isTerminator kind = true) :
    kind.leftPower = 0 := by
  simp only [isTerminator, Bool.or_eq_true, decide_eq_true_eq] at h
  rcases h with (rfl | rfl) | rfl <;> rfl

/-- Declarations in front of a semicolon are read as they are in a statement. -/
theorem ends_declarations {e : Phrase} (hvar : e.first = .keyword .var)
    (he : e.Reads Power.statement) (hn : e.kinds.length < n + 1)
    (hs : s.Sees (e.rest ++ .mark .semicolon :: kinds) f) :
    Ends (declarations (productions n) resultRegister n) s none fun _ s' =>
      ∃ f', s'.Sees (.mark .semicolon :: kinds) f' ∧ e.Drawn f f' := by
  obtain ⟨left, s', hreads, -, f', hs', hdrawn⟩ := ends_phrase (t := ⟨.keyword .var, ⟨0, 0⟩⟩) he hn
    hvar.symm hs (.inl rfl)
  obtain ⟨left₁, s₁, hdeclarations, hclimb⟩ := bind_eq_ok
    (show (declarations (productions n) resultRegister n >>= fun left =>
      if left = .done then pure left else climb (productions n) Power.statement resultRegister n left)
        s = .ok left s' from hreads)
  refine ⟨left₁, s₁, hdeclarations, f', ?_, hdrawn⟩
  obtain ⟨t, hpushed, hend⟩ := pushed_of_declarations hdeclarations
  have hnext : s₁.lexer.next = (.ok t, { s₁.lexer with pushed := none }) := by
    simp only [Lexer.next, hpushed]
  split at hclimb
  · cases hclimb
    exact hs'
  · -- The token behind is read and given back once more.
    cases n with
    | zero => cases hclimb
    | succ n =>
      obtain ⟨t', s₂, h₂, hclimb⟩ := bind_eq_ok hclimb
      rw [next_apply, hnext] at h₂
      cases h₂
      rw [if_pos (by rw [leftPower_of_terminator hend]; exact Nat.zero_le _)] at hclimb
      cases hclimb
      obtain ⟨⟨t', l, hl, ht', hkinds⟩, hcurrent⟩ := hs'
      cases hl
      exact ⟨⟨t, _, hnext, ht', hkinds⟩, hcurrent⟩

variable {init cond step : Option Phrase}

theorem ends_forStart (hinit : ∀ e ∈ init, e.Reads e.initPower)
    (hn : (Phrase.kindsIf init).length < n)
    (hs : s.Sees (Phrase.kindsIf init ++ .mark .semicolon :: kinds) f) :
    Ends (forStart (productions n) resultRegister) s none fun _ s' =>
      ∃ f', s'.Sees kinds f' ∧ Phrase.DrawnIf f f' init := by
  cases init with
  | none =>
    refine (ends_next hs).andThen fun t s₁ ⟨ht, hs₁, _⟩ => ?_
    rw [if_neg (by rw [ht]; nofun), if_pos ht]
    exact .pure ⟨f, hs₁, rfl⟩
  | some e =>
    have he := hinit e rfl
    refine (ends_next hs).andThen fun t s₁ ⟨ht, hs₁, _⟩ => ?_
    by_cases hvar : e.first = .keyword .var
    · rw [if_pos (ht.trans hvar)]
      rw [Phrase.initPower, if_pos hvar] at he
      refine (ends_declarations hvar he (Nat.lt_succ_of_lt hn) hs₁).andThen
        fun _ s₂ ⟨f', hs₂, hdrawn⟩ => ?_
      exact (ends_expect hs₂).mono fun _ _ h => ⟨f', h, hdrawn⟩
    · rw [if_neg (ht ▸ hvar), if_neg (ht ▸ e.first_ne_semicolon)]
      rw [Phrase.initPower, if_neg hvar] at he
      refine (ends_phrase he hn ht hs₁ (.inl rfl)).andThen fun _ s₂ ⟨_, f', hs₂, hdrawn⟩ => ?_
      exact (ends_expect hs₂).mono fun _ _ h => ⟨f', h, hdrawn⟩

theorem ends_forTest (hcond : ∀ e ∈ cond, e.Reads Power.expression)
    (hn : (Phrase.kindsIf cond).length < n)
    (hs : s.Sees (Phrase.kindsIf cond ++ .mark .semicolon :: kinds) f) :
    Ends (forTest (productions n) resultRegister) s none fun exit s' =>
      ∃ f', s'.Sees kinds f' ∧ Phrase.GuardDrawn f f' exit cond := by
  cases cond with
  | none =>
    refine (ends_next hs).andThen fun t s₁ ⟨ht, hs₁, _⟩ => ?_
    rw [if_pos ht]
    exact .pure ⟨f, hs₁, rfl, rfl⟩
  | some e =>
    refine (ends_next hs).andThen fun t s₁ ⟨ht, hs₁, _⟩ => ?_
    rw [if_neg (ht ▸ e.first_ne_semicolon)]
    refine (ends_phrase (hcond e rfl) hn ht hs₁ (.inl rfl)).andThen
      fun _ s₂ ⟨_, f', hs₂, hdrawn⟩ => ?_
    refine (ends_expect hs₂).andThen fun _ s₃ hs₃ => ?_
    rw [map_eq_pure_bind]
    exact (ends_emit hs₃ _ _ _ _).andThen fun exit s₄ ⟨hexit, place, hs₄⟩ =>
      .pure ⟨_, hs₄, f', place, hdrawn, rfl, hexit ▸ rfl⟩

theorem ends_forStep (hstep : ∀ e ∈ step, e.Reads Power.expression)
    (hn : (Phrase.kindsIf step).length < n)
    (hs : s.Sees (Phrase.kindsIf step ++ .mark .rParen :: kinds) f) :
    Ends (forStep (productions n) resultRegister) s none fun _ s' =>
      ∃ f', s'.Sees kinds f' ∧ Phrase.DrawnIf f f' step := by
  cases step with
  | none =>
    refine (ends_next hs).andThen fun t s₁ ⟨ht, hs₁, _⟩ => ?_
    rw [if_pos ht]
    exact .pure ⟨f, hs₁, rfl⟩
  | some e =>
    refine (ends_next hs).andThen fun t s₁ ⟨ht, hs₁, _⟩ => ?_
    rw [if_neg (ht ▸ e.opens.2.2)]
    refine (ends_phrase (hstep e rfl) hn ht hs₁ (.inr ⟨le_refl _, rfl⟩)).andThen
      fun _ s₂ ⟨_, f', hs₂, hdrawn⟩ => ?_
    exact (ends_expect hs₂).mono fun _ _ h => ⟨f', h, hdrawn⟩

theorem ends_patchExit (hs : s.Sees kinds f) (exit : Option Nat) (target : Nat) :
    Ends (patchExit exit target) s none fun _ s' => s'.Sees kinds (f.aim exit.toList target) := by
  cases exit with
  | none => exact .pure hs
  | some n => exact ends_patch hs n target

theorem ends_for (hinit : ∀ e ∈ init, e.Reads e.initPower)
    (hcond : ∀ e ∈ cond, e.Reads Power.expression) (hstep : ∀ e ∈ step, e.Reads Power.expression)
    (hn : (Phrase.kindsIf init).length < n ∧ (Phrase.kindsIf cond).length < n ∧
      (Phrase.kindsIf step).length < n)
    (hbody : body.ReadBy (statementWithin n)) (hstops : body.stops behind = true)
    (hs : s.Sees (.mark .lParen :: (Phrase.kindsIf init ++ .mark .semicolon ::
      (Phrase.kindsIf cond ++ .mark .semicolon :: (Phrase.kindsIf step ++ .mark .rParen ::
        (body.kinds ++ behind :: kinds))))) f) :
    Ends (forStatement (productions n) resultRegister) s none fun left s' =>
      left = .done ∧ ∃ f', s'.Sees (behind :: kinds) f' ∧
        (Stmt.forLoop init cond step body).Drawn f f' := by
  refine (ends_expect hs).andThen fun _ s₁ hs₁ => ?_
  refine (ends_modifyCurrent hs₁ _).andThen fun _ s₂ hs₂ => ?_
  refine (ends_forStart hinit hn.1 hs₂).andThen fun _ s₃ ⟨f₁, hs₃, hinit⟩ => ?_
  refine (ends_here hs₃).andThen fun _ s₄ ⟨htop, hs₄⟩ => ?_
  subst htop
  refine (ends_forTest hcond hn.2.1 hs₄).andThen fun exit s₅ ⟨f₂, hs₅, hcond⟩ => ?_
  refine (ends_emit hs₅ _ _ _ _).andThen fun _ s₆ ⟨htoBody, place, hs₆⟩ => ?_
  subst htoBody
  refine (ends_here hs₆).andThen fun _ s₇ ⟨hstepAt, hs₇⟩ => ?_
  rw [FunctionState.size_add] at hstepAt
  subst hstepAt
  refine (ends_forStep hstep hn.2.2 hs₇).andThen fun _ s₈ ⟨f₃, hs₈, hstep⟩ => ?_
  refine (ends_emit hs₈ _ _ _ _).andThen fun _ s₉ ⟨_, place', hs₉⟩ => ?_
  refine (ends_here hs₉).andThen fun _ s₁₀ ⟨hhere, hs₁₀⟩ => ?_
  rw [FunctionState.size_add] at hhere
  subst hhere
  refine (ends_patch hs₁₀ _ _).andThen fun _ s₁₁ hs₁₁ => ?_
  refine (ends_openLoop hs₁₁).andThen fun _ s₁₂ hs₁₂ => ?_
  refine (hbody s₁₂ _ behind kinds hstops hs₁₂).andThen fun _ s₁₃ ⟨f₄, hs₁₃, hbody⟩ => ?_
  refine (ends_emit hs₁₃ _ _ _ _).andThen fun _ s₁₄ ⟨_, place'', hs₁₄⟩ => ?_
  refine (ends_here hs₁₄).andThen fun behind s₁₅ ⟨hbehind, hs₁₅⟩ => ?_
  rw [FunctionState.size_add] at hbehind
  subst hbehind
  refine (ends_patchExit hs₁₅ _ _).andThen fun _ s₁₆ hs₁₆ => ?_
  refine (ends_closeLoop hs₁₆ _ _).andThen fun _ s₁₇ hs₁₇ => ?_
  refine (ends_modifyCurrent hs₁₇ _).andThen fun _ s₁₈ hs₁₈ => .pure ⟨rfl, _, hs₁₈, ?_⟩
  exact (Stmt.drawn_for hinit hcond hstep hbody).congr ⟨rfl, rfl⟩ ⟨rfl, rfl⟩

/-! ## Ways out -/

theorem ends_atTerminator {kind : Token.Kind} (hs : s.Sees (kind :: kinds) f) :
    Ends atTerminator s none fun found s' =>
      found = isTerminator kind ∧ s'.Sees (kind :: kinds) f := by
  refine (ends_next hs).andThen fun t s₁ ⟨ht, hs₁, hpushed⟩ => ?_
  exact (ends_pushBack hs₁ hpushed t).andThen fun _ s₂ hs₂ => .pure ⟨by rw [ht], ht ▸ hs₂⟩

theorem ends_return {e : Phrase} (he : e.Reads Power.expression) (hn : e.kinds.length < n)
    (hbehind : isTerminator behind = true) (place : Position) (closed : Bool)
    (hs : s.Sees (e.kinds ++ behind :: kinds) f) :
    Ends (returnStatement (productions n) resultRegister place) s none fun left s' =>
      left = .temp ∧ ∃ f', s'.Sees (behind :: kinds) f' ∧
        (Stmt.ret (some e) closed).Drawn f f' := by
  refine (ends_atTerminator hs).andThen fun found s₁ ⟨hfound, hs₁⟩ => ?_
  rw [if_neg (by rw [hfound, e.opens.2.1]; nofun)]
  refine (ends_parse he hn hs₁ (.inl hbehind)).andThen fun _ s₂ ⟨f', hs₂, hdrawn⟩ => ?_
  exact (ends_emitAt hs₂ _ _ _ _ _).andThen fun _ s₃ ⟨_, hs₃⟩ =>
    .pure ⟨rfl, _, hs₃, Stmt.drawn_ret hdrawn closed⟩

theorem ends_returnVoid (hbehind : isTerminator behind = true) (place : Position) (closed : Bool)
    (hs : s.Sees (behind :: kinds) f) :
    Ends (returnStatement (productions n) resultRegister place) s none fun left s' =>
      left = .temp ∧ ∃ f', s'.Sees (behind :: kinds) f' ∧ (Stmt.ret none closed).Drawn f f' := by
  refine (ends_atTerminator hs).andThen fun found s₁ ⟨hfound, hs₁⟩ => ?_
  rw [if_pos (hfound.trans hbehind)]
  exact (ends_emitAt hs₁ _ _ _ _ _).andThen fun _ s₂ ⟨_, hs₂⟩ =>
    .pure ⟨rfl, _, hs₂, Stmt.drawn_retVoid f closed⟩

theorem ends_leave (exit : LoopExit) (place : Position) (closed : Bool) (hs : s.Sees kinds f) :
    Ends (leaveLoop exit.word place) s (f.fault? (some exit.word)) fun left s' =>
      left = .temp ∧ ∃ f', s'.Sees kinds f' ∧ (Stmt.leave exit closed).Drawn f f' := by
  rcases hloops : f.loops with _ | ⟨labels, loops⟩
  · obtain ⟨-, rfl⟩ := hs
    rw [FunctionState.fault?, hloops]
    refine ⟨place, s, ?_⟩
    unfold leaveLoop
    rw [get_bind_apply, hloops]
    rfl
  · have hnone : f.fault? (some exit.word) = none := by
      simp [FunctionState.fault?, hloops]
    rw [hnone]
    obtain ⟨hlexer, rfl⟩ := hs
    have hleave := Stmt.drawn_leave exit place (hloops ▸ List.cons_ne_nil _ _) closed
    refine ⟨.temp, { s with current := s.current.leaving exit place }, ?_, rfl, _, ⟨hlexer, rfl⟩, hleave⟩
    unfold leaveLoop
    rw [get_bind_apply, hloops]
    simp only [bind_apply, emitAt_apply]
    cases exit <;> simp [FunctionState.leaving, hloops, FunctionState.jot, LoopExit.word]  <;> rfl

/-! ## Statements -/

/-- What stands at the end of a statement: a semicolon, or the end of the block. -/
def Ending (closed : Bool) (behind : Token.Kind) : Prop :=
  (closed || behind.endsBlock) = true

/-- A statement without a semicolon ends in front of what ends the block. -/
theorem Ending.open (h : Ending false behind) :
    behind ≠ .mark .semicolon ∧ isTerminator behind = true := by
  simp only [Ending, Bool.false_or, Token.Kind.endsBlock, Bool.or_eq_true, decide_eq_true_eq] at h
  rcases h with rfl | rfl <;> exact ⟨nofun, rfl⟩

theorem Ending.cons {closed : Bool} (h : Ending closed behind) (kinds : List Token.Kind) :
    ∃ kind rest, closing closed ++ behind :: kinds = kind :: rest ∧ isTerminator kind = true := by
  cases closed with
  | true => exact ⟨_, _, rfl, rfl⟩
  | false => exact ⟨_, _, rfl, h.open.2⟩

theorem ends_climb {kind : Token.Kind} (hkind : isTerminator kind = true) (p : Productions)
    (power : Nat) (dest : Int) (fuel : Nat) (left : Operand) (hs : s.Sees (kind :: kinds) f) :
    Ends (climb p power dest (fuel + 1) left) s none fun left' s' =>
      left' = left ∧ s'.Sees (kind :: kinds) f := by
  refine (ends_next hs).andThen fun t s₁ ⟨ht, hs₁, hpushed⟩ => ?_
  rw [if_pos (by rw [ht, leftPower_of_terminator hkind]; exact Nat.zero_le _)]
  exact (ends_pushBack hs₁ hpushed t).andThen fun _ s₂ hs₂ => .pure ⟨rfl, ht ▸ hs₂⟩

variable {first : Token.Kind} {rest : List Token.Kind} {φ : Option Keyword}

/-- A statement that starts with an expression is closed behind it. -/
theorem ends_statement {closed : Bool} {Q : FunctionState → Prop} (hfirst : isTerminator first = false)
    (hending : Ending closed behind) (hs : s.Sees (first :: rest) f)
    (hread : ∀ t s₁, t.kind = first → s₁.Sees rest f →
      Ends (expressionWithin n t Power.statement resultRegister) s₁ φ fun left s' =>
        left ≠ .done ∧ ∃ f', s'.Sees (closing closed ++ behind :: kinds) f' ∧ Q f') :
    Ends (statementWithin (n + 1)) s φ fun _ s' => ∃ f', s'.Sees (behind :: kinds) f' ∧ Q f' := by
  refine (ends_next hs).andThen fun t s₁ ⟨ht, hs₁, _⟩ => ?_
  rw [if_neg (by rintro heq; rw [← ht, heq] at hfirst; cases hfirst), if_neg (by rw [ht, hfirst]; nofun)]
  refine (hread t s₁ ht hs₁).finish fun left s₂ ⟨hleft, f', hs₂, hQ⟩ => ?_
  rw [if_neg hleft]
  cases closed with
  | true =>
    refine (ends_next hs₂).andThen fun t s₃ ⟨ht, hs₃, _⟩ => ?_
    rw [if_pos ht]
    exact .pure ⟨f', hs₃, hQ⟩
  | false =>
    obtain ⟨hne, hend⟩ := hending.open
    refine (ends_next hs₂).andThen fun t s₃ ⟨ht, hs₃, hpushed⟩ => ?_
    rw [if_neg (ht ▸ hne), if_pos (ht ▸ hend)]
    exact (ends_pushBack hs₃ hpushed t).mono fun _ _ h => ⟨f', ht ▸ h, hQ⟩

/-- A statement that a word starts, and that is closed. -/
theorem ends_closed {closed : Bool} {Q : FunctionState → Prop} (hfirst : isTerminator first = false)
    (hending : Ending closed behind) (hs : s.Sees (first :: rest) f)
    (hlead : ∀ t s₁, t.kind = first → s₁.Sees rest f →
      Ends (leading (productions (n + 1)) t Power.statement resultRegister) s₁ φ fun left s' =>
        left = .temp ∧ ∃ f', s'.Sees (closing closed ++ behind :: kinds) f' ∧ Q f') :
    Ends (statementWithin (n + 3)) s φ fun _ s' => ∃ f', s'.Sees (behind :: kinds) f' ∧ Q f' := by
  refine ends_statement hfirst hending hs fun t s₁ ht hs₁ => ?_
  refine (hlead t s₁ ht hs₁).finish fun left s₂ ⟨hleft, f', hs₂, hQ⟩ => ?_
  obtain ⟨kind, rest, heq, hend⟩ := hending.cons kinds
  rw [heq] at hs₂ ⊢
  subst hleft
  rw [if_neg nofun]
  exact (ends_climb hend _ _ _ n _ hs₂).mono fun _ _ h => ⟨h.1 ▸ nofun, f', h.2, hQ⟩

/-- A statement that a word starts, and that ends by itself. -/
theorem ends_done {Q : CompileState → Prop} (hfirst : isTerminator first = false)
    (hs : s.Sees (first :: rest) f)
    (hlead : ∀ t s₁, t.kind = first → s₁.Sees rest f →
      Ends (leading (productions n) t Power.statement resultRegister) s₁ φ fun left s' =>
        left = .done ∧ Q s') :
    Ends (statementWithin (n + 2)) s φ fun _ s' => Q s' := by
  refine (ends_next hs).andThen fun t s₁ ⟨ht, hs₁, _⟩ => ?_
  rw [if_neg (by rintro heq; rw [← ht, heq] at hfirst; cases hfirst), if_neg (by rw [ht, hfirst]; nofun)]
  have hexpression : Ends (expressionWithin (n + 1) t Power.statement resultRegister) s₁ φ
      fun left s' => left = .done ∧ Q s' := by
    refine (hlead t s₁ ht hs₁).finish fun left s₂ ⟨hleft, hQ⟩ => ?_
    rw [if_pos hleft]
    exact .pure ⟨hleft, hQ⟩
  refine hexpression.finish fun left s₂ ⟨hleft, hQ⟩ => ?_
  rw [if_pos hleft]
  exact .pure hQ

/-- A step that reads statements up to a token and that token, with a bound on their number. -/
structure ReadsBody (n : Nat) (last : Token.Kind) (m : Nat → Compile Unit) : Prop where
  stop : ∀ {s f kinds} fuel, s.Sees (last :: kinds) f →
    Ends (m (fuel + 1)) s none fun _ s' => s'.Sees kinds f
  go : ∀ {s f kind kinds φ Q} fuel, kind.endsBlock = false → s.Sees (kind :: kinds) f →
    (∀ s₁, s₁.Sees (kind :: kinds) f →
      Ends (statementWithin n >>= fun _ => m fuel) s₁ φ Q) → Ends (m (fuel + 1)) s φ Q

theorem endsBlock_eq_false {kind : Token.Kind} :
    kind.endsBlock = false ↔ kind ≠ .mark .rBrace ∧ kind ≠ .finish := by
  simp [Token.Kind.endsBlock]

theorem readsBody_block (n : Nat) : ReadsBody n (.mark .rBrace) (blockBody (productions n)) := by
  constructor
  · intro s f kinds fuel hs
    refine (ends_next hs).andThen fun t s₁ ⟨ht, hs₁, _⟩ => ?_
    rw [if_pos ht]
    exact .pure hs₁
  · intro s f kind kinds φ Q fuel hkind hs hrest
    obtain ⟨hbrace, hfinish⟩ := endsBlock_eq_false.1 hkind
    refine (ends_next hs).andThen fun t s₁ ⟨ht, hs₁, hpushed⟩ => ?_
    rw [if_neg (ht ▸ hbrace), if_neg (ht ▸ hfinish)]
    exact (ends_pushBack hs₁ hpushed t).andThen fun _ s₂ hs₂ => hrest s₂ (ht ▸ hs₂)

theorem readsBody_script (n : Nat) : ReadsBody n .finish (scriptBody (productions n)) := by
  constructor
  · intro s f kinds fuel hs
    refine (ends_next hs).andThen fun t s₁ ⟨ht, hs₁, _⟩ => ?_
    rw [if_pos ht]
    exact .pure hs₁
  · intro s f kind kinds φ Q fuel hkind hs hrest
    obtain ⟨hbrace, hfinish⟩ := endsBlock_eq_false.1 hkind
    refine (ends_next hs).andThen fun t s₁ ⟨ht, hs₁, hpushed⟩ => ?_
    rw [if_neg (ht ▸ hfinish), if_neg (ht ▸ hbrace)]
    exact (ends_pushBack hs₁ hpushed t).andThen fun _ s₂ hs₂ => hrest s₂ (ht ▸ hs₂)

end Compile

/-- No statement starts with the end of a block. -/
theorem Stmt.endsBlock_first {t : Stmt Phrase} {kind : Token.Kind} {kinds : List Token.Kind}
    (h : t.kinds = kind :: kinds) : kind.endsBlock = false := by
  cases t with
  | empty closed => cases closed <;> cases h; rfl
  | expr e closed =>
    cases h
    have hopens := e.opens.2.1
    simp only [Compile.isTerminator, Bool.or_eq_false_iff] at hopens
    simp only [Token.Kind.endsBlock, Bool.or_eq_false_iff]
    exact ⟨hopens.1.2, hopens.2⟩
  | leave exit closed => cases h; cases exit <;> rfl
  | _ => cases h; rfl

/-- What stands behind the first of some statements. -/
theorem Stmts.lead_cons {ts : Stmts Phrase} {last : Token.Kind} (h : ts.Fits last)
    (kinds : List Token.Kind) : ∃ rest, ts.kinds ++ last :: kinds = ts.lead last :: rest := by
  cases ts with
  | nil => exact ⟨kinds, rfl⟩
  | cons t ts =>
    obtain ⟨-, hne, -, -⟩ := h
    obtain ⟨kind, rest, hkinds⟩ := List.exists_cons_of_ne_nil hne
    exact ⟨rest ++ (ts.kinds ++ last :: kinds), by simp [Stmts.kinds, Stmts.lead, hkinds]⟩

open Compile in
mutual

/-- The compiler reads a statement that fits, and lays it out. -/
theorem Stmt.reads : (t : Stmt Phrase) → (n : Nat) → t.Fits → t.kinds.length + 2 ≤ n →
    t.ReadBy (statementWithin n)
  | .empty closed, n, _, hn => by
    obtain ⟨n, rfl⟩ : ∃ m, n = m + 1 := ⟨n - 1, by omega⟩
    intro s f behind kinds hstops hs
    rw [Stmt.loose, FunctionState.fault?_none]
    cases closed with
    | true =>
      refine (ends_next hs).andThen fun t s₁ ⟨ht, hs₁, _⟩ => ?_
      rw [if_pos ht]
      exact .pure ⟨f, hs₁, Stmt.drawn_empty f true⟩
    | false =>
      refine (ends_next hs).andThen fun t s₁ ⟨ht, hs₁, hpushed⟩ => ?_
      obtain ⟨hne, hend⟩ := Ending.open hstops
      rw [if_neg (ht ▸ hne), if_pos (ht ▸ hend)]
      exact (ends_pushBack hs₁ hpushed t).mono fun _ _ h => ⟨f, ht ▸ h, Stmt.drawn_empty f false⟩
  | .expr e closed, n, he, hn => by
    simp only [Stmt.kinds, List.length_append] at hn
    obtain ⟨n, rfl⟩ : ∃ m, n = m + 1 := ⟨n - 1, by omega⟩
    intro s f behind kinds hstops hs
    rw [Stmt.loose, FunctionState.fault?_none]
    rw [Stmt.kinds, List.append_assoc] at hs
    refine ends_statement e.opens.2.1 hstops hs fun t s₁ ht hs₁ => ?_
    obtain ⟨kind, rest, heq, hend⟩ := Ending.cons hstops kinds
    rw [heq] at hs₁ ⊢
    refine (ends_phrase he (by omega) ht hs₁ (.inl hend)).mono fun _ _ h => ?_
    obtain ⟨hleft, f', hs', hdrawn⟩ := h
    exact ⟨hleft, f', hs', Stmt.drawn_expr hdrawn closed⟩
  | .block body, n, hfits, hn => by
    simp only [Stmt.kinds, List.length_append, List.length_cons, List.length_nil] at hn
    obtain ⟨n, rfl⟩ : ∃ m, n = m + 2 := ⟨n - 2, by omega⟩
    intro s f behind kinds _ hs
    simp only [Stmt.kinds, List.cons_append, List.append_assoc, List.nil_append] at hs
    refine ends_done rfl hs fun t s₁ ht hs₁ => ?_
    obtain ⟨_, place⟩ := t
    cases ht
    refine (ends_modifyCurrent hs₁ _).andThen fun _ s₂ hs₂ => ?_
    refine (Stmts.reads body n n (readsBody_block n) hfits (by omega) (by omega) hs₂).finish
      fun _ s₃ ⟨f', hs₃, hdrawn⟩ => ?_
    refine (ends_modifyCurrent hs₃ _).andThen fun _ s₄ hs₄ => .pure ⟨rfl, _, hs₄, ?_⟩
    exact (Stmt.drawn_block hdrawn).congr ⟨rfl, rfl⟩ ⟨rfl, rfl⟩
  | .ifThen test body, n, ⟨htest, hfits⟩, hn => by
    simp only [Stmt.kinds, List.length_append, List.length_cons] at hn
    obtain ⟨n, rfl⟩ : ∃ m, n = m + 2 := ⟨n - 2, by omega⟩
    intro s f behind kinds hstops hs
    simp only [Stmt.kinds, List.cons_append, List.append_assoc] at hs
    refine ends_done rfl hs fun t s₁ ht hs₁ => ?_
    obtain ⟨_, place⟩ := t
    cases ht
    exact ends_ifThen htest (by omega) (Stmt.reads body n hfits (by omega)) hstops hs₁
  | .ifElse test body other, n, ⟨htest, hfits, helse, hfits'⟩, hn => by
    simp only [Stmt.kinds, List.length_append, List.length_cons] at hn
    obtain ⟨n, rfl⟩ : ∃ m, n = m + 2 := ⟨n - 2, by omega⟩
    intro s f behind kinds hstops hs
    simp only [Stmt.kinds, List.cons_append, List.append_assoc] at hs
    refine ends_done rfl hs fun t s₁ ht hs₁ => ?_
    obtain ⟨_, place⟩ := t
    cases ht
    exact ends_ifElse htest (by omega) (Stmt.reads body n hfits (by omega)) helse
      (Stmt.reads other n hfits' (by omega)) hstops hs₁
  | .whileLoop test body, n, ⟨htest, hfits⟩, hn => by
    simp only [Stmt.kinds, List.length_append, List.length_cons] at hn
    obtain ⟨n, rfl⟩ : ∃ m, n = m + 2 := ⟨n - 2, by omega⟩
    intro s f behind kinds hstops hs
    simp only [Stmt.kinds, List.cons_append, List.append_assoc] at hs
    rw [Stmt.loose, FunctionState.fault?_none]
    refine ends_done rfl hs fun t s₁ ht hs₁ => ?_
    obtain ⟨_, place⟩ := t
    cases ht
    exact ends_while htest (by omega) (Stmt.reads body n hfits (by omega)) hstops hs₁
  | .doLoop body test closed, n, ⟨hfits, hwhile, htest⟩, hn => by
    simp only [Stmt.kinds, List.length_append, List.length_cons] at hn
    obtain ⟨n, rfl⟩ : ∃ m, n = m + 3 := ⟨n - 3, by omega⟩
    intro s f behind kinds hstops hs
    simp only [Stmt.kinds, List.cons_append, List.append_assoc] at hs
    rw [Stmt.loose, FunctionState.fault?_none]
    refine ends_closed rfl hstops hs fun t s₁ ht hs₁ => ?_
    obtain ⟨_, place⟩ := t
    cases ht
    exact ends_do (Stmt.reads body (n + 1) hfits (by omega)) hwhile htest (by omega) closed hs₁
  | .forLoop init test step body, n, ⟨hinit, htest, hstep, hfits⟩, hn => by
    simp only [Stmt.kinds, List.length_append, List.length_cons] at hn
    obtain ⟨n, rfl⟩ : ∃ m, n = m + 2 := ⟨n - 2, by omega⟩
    intro s f behind kinds hstops hs
    simp only [Stmt.kinds, List.cons_append, List.append_assoc] at hs
    rw [Stmt.loose, FunctionState.fault?_none]
    refine ends_done rfl hs fun t s₁ ht hs₁ => ?_
    obtain ⟨_, place⟩ := t
    cases ht
    exact ends_for hinit htest hstep (by omega) (Stmt.reads body n hfits (by omega)) hstops hs₁
  | .leave exit closed, n, _, hn => by
    simp only [Stmt.kinds, List.length_cons] at hn
    obtain ⟨n, rfl⟩ : ∃ m, n = m + 3 := ⟨n - 3, by omega⟩
    intro s f behind kinds hstops hs
    simp only [Stmt.kinds, List.cons_append] at hs
    refine ends_closed rfl hstops hs fun t s₁ ht hs₁ => ?_
    obtain ⟨_, place⟩ := t
    cases ht
    have hleave := ends_leave exit place closed hs₁
    cases exit <;> exact hleave
  | .ret none closed, n, _, hn => by
    simp only [Stmt.kinds, List.length_cons] at hn
    obtain ⟨n, rfl⟩ : ∃ m, n = m + 3 := ⟨n - 3, by omega⟩
    intro s f behind kinds hstops hs
    simp only [Stmt.kinds, Phrase.kindsIf, List.cons_append, List.nil_append] at hs
    rw [Stmt.loose, FunctionState.fault?_none]
    refine ends_closed rfl hstops hs fun t s₁ ht hs₁ => ?_
    obtain ⟨_, place⟩ := t
    cases ht
    obtain ⟨kind, rest, heq, hend⟩ := Ending.cons hstops kinds
    rw [heq] at hs₁ ⊢
    exact ends_returnVoid hend place closed hs₁
  | .ret (some e) closed, n, he, hn => by
    simp only [Stmt.kinds, Phrase.kindsIf, List.length_append, List.length_cons] at hn
    obtain ⟨n, rfl⟩ : ∃ m, n = m + 3 := ⟨n - 3, by omega⟩
    intro s f behind kinds hstops hs
    simp only [Stmt.kinds, Phrase.kindsIf, List.cons_append, List.append_assoc] at hs
    rw [Stmt.loose, FunctionState.fault?_none]
    refine ends_closed rfl hstops hs fun t s₁ ht hs₁ => ?_
    obtain ⟨_, place⟩ := t
    cases ht
    obtain ⟨kind, rest, heq, hend⟩ := Ending.cons hstops kinds
    rw [heq] at hs₁ ⊢
    exact ends_return (he e rfl) (by omega) hend place closed hs₁

/-- The compiler reads statements that fit, up to the token that ends them, and lays them out. -/
theorem Stmts.reads {last : Token.Kind} {m : Nat → Compile Unit} : (ts : Stmts Phrase) →
    (n fuel : Nat) → ReadsBody n last m → ts.Fits last → ts.kinds.length + 2 ≤ n →
    ts.kinds.length + 1 ≤ fuel → ∀ {s : CompileState} {f : FunctionState} {kinds : List Token.Kind},
    s.Sees (ts.kinds ++ last :: kinds) f → Ends (m fuel) s (f.fault? ts.loose) fun _ s' =>
      ∃ f', s'.Sees kinds f' ∧ ts.Drawn f f'
  | .nil, n, fuel, hm, _, _, hfuel, s, f, kinds, hs => by
    obtain ⟨fuel, rfl⟩ : ∃ k, fuel = k + 1 := ⟨fuel - 1, by omega⟩
    rw [Stmts.loose, FunctionState.fault?_none]
    exact (hm.stop fuel hs).mono fun _ s' h => ⟨f, h, Stmts.drawn_nil f⟩
  | .cons t ts, n, fuel, hm, ⟨ht, hne, hstops, hts⟩, hn, hfuel, s, f, kinds, hs => by
    simp only [Stmts.kinds, List.length_append] at hn hfuel
    obtain ⟨fuel, rfl⟩ : ∃ k, fuel = k + 1 := ⟨fuel - 1, by omega⟩
    obtain ⟨kind, rest, hkinds⟩ := List.exists_cons_of_ne_nil hne
    obtain ⟨others, hlead⟩ := Stmts.lead_cons hts kinds
    have hpos : 0 < t.kinds.length := List.length_pos_iff.2 hne
    rw [Stmts.kinds, List.append_assoc] at hs
    rw [Stmts.loose, FunctionState.fault?_or]
    have hcons : t.kinds ++ (ts.kinds ++ last :: kinds) =
        kind :: (rest ++ (ts.kinds ++ last :: kinds)) := by rw [hkinds, List.cons_append]
    refine hm.go fuel (Stmt.endsBlock_first hkinds) (hcons ▸ hs) fun s₁ hs₁ => ?_
    rw [← hcons, hlead] at hs₁
    refine (Stmt.reads t n ht (by omega) s₁ f _ others hstops hs₁).bind fun _ s₂ ⟨f₁, hs₂, hdrawn⟩ => ?_
    rw [← hlead] at hs₂
    have hrest := Stmts.reads ts n fuel hm hts (by omega) (by omega) hs₂
    rw [hdrawn.fault?] at hrest
    exact hrest.mono fun _ s₃ ⟨f₂, hs₃, hdrawn'⟩ => ⟨f₂, hs₃, Stmts.drawn_cons hdrawn hdrawn'⟩

end

end ScriptEngine
