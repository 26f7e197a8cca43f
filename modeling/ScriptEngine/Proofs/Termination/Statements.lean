import ScriptEngine.Proofs.Termination.Expressions

/-!
# Statements make progress

The constructs around expressions, as in `ScriptEngine.Proofs.Termination.Expressions`, and then the
whole grammar: by an induction on the measure, it agrees with itself for any two amounts of fuel that
are not below (`agrees_productions`).

A statement may end with no more than having given a token back, in front of a brace or the end.
Loops over statements look at that token first, and go on only if the statement takes it
(`paced_advance`).
-/

namespace ScriptEngine

namespace Compile

variable {p q : Productions} {w i k : Nat} {t : Token} {place : Position}

/-- A token that is given back is the next one to be read. -/
theorem Paced.reread {α : Type} {m : α → Nat} {f g : Token → Compile α}
    (hf : Paced i k m (f t) (g t)) :
    Paced i k m (pushBack t >>= fun _ => next >>= f) (pushBack t >>= fun _ => next >>= g) := by
  intro s hs
  refine hf { s with lexer := { s.lexer with pushed := none }, position := t.position } ?_
  have hsupply := Lexer.supply_pushed s.lexer none
  rw [Lexer.ahead] at hs ⊢
  simp only [Option.map_none, Option.getD_none]
  omega

/-- A statement from a token on that was just read and is given back, in front of others. -/
theorem paced_advance {α : Type} {m : α → Nat} {f g : Unit → Compile α} (h : p.Agrees q w)
    (hle : i + weight t ≤ k) (hk : 2 * k + 1 < w) (hfinish : t.kind ≠ .finish)
    (hbrace : t.kind ≠ .mark .rBrace) (hf : i + 1 ≤ k → Paced i k m (f ()) (g ())) :
    Paced i k m (pushBack t >>= fun _ => p.statement >>= f)
      (pushBack t >>= fun _ => q.statement >>= g) := by
  have hi := spend hle rfl hfinish
  have hstatement := h.advance (k := i) hfinish hbrace (by omega)
  have hall := hstatement.andThen fun _ => hf hi
  rwa [bind_assoc, bind_assoc] at hall

/-! ## Functions -/

/-- A parameter starts with a name, so there is a token to spare behind it. -/
theorem paced_parameterName (hle : i + weight t ≤ k) (params : List String) :
    Paced i k (fun _ => 1) (parameterName t params) (parameterName t params) := by
  unfold parameterName
  split
  · rename_i s ht
    exact .ite (fun _ => paced_fail _ _) fun _ => .pure (spend hle ht nofun)
  · exact paced_fail _ _

theorem paced_parameterDefault (h : p.Agrees q w) (hle : i + weight t ≤ k) (hk : 2 * k < w)
    (register : Int) (defaults : Bool) :
    Paced i k (fun r => weight r.1) (parameterDefault p register place t defaults)
      (parameterDefault q register place t defaults) := by
  refine .ite (fun _ => ?_) fun _ => .ite (fun _ => paced_fail _ _) fun _ => ?_
  · have hi := Nat.le_of_add_right_le hle
    refine (paced_parse h (by omega) _ _).andThen fun _ => .read fun behind j hbehind => .pure ?_
    exact hbehind.trans hi
  · exact (aloof_emitAt _ _ _ _ _).andThen fun _ => .pure hle

theorem advances_parameters (h : p.Agrees q w) (dest : Int) :
    (Loop.parameters dest).Advances p q w := by
  rintro ⟨t, params, defaults⟩ i k hle hk
  refine (paced_parameterName hle params).bind fun param j hj => .read fun behind j' hbehind => ?_
  refine (paced_parameterDefault h hbehind (by omega) _ _).bind fun r n hr => ?_
  refine .ite (fun hcomma => ?_) fun _ => .ite (fun _ => .pure ?_) fun _ => paced_fail _ _
  · have hn := spend hr hcomma nofun
    refine .read fun t n' ht => .pure ?_
    -- The name and the comma were worked off, and the token behind them is in hand.
    change n' + (weight t + 1) ≤ k
    omega
  · change n + 0 ≤ k
    omega

theorem advances_block (h : p.Agrees q w) : Loop.block.Advances p q w := by
  intro _ i k (hle : i ≤ k) hk
  refine .read fun t j ht => .ite (fun _ => .pure ?_) fun hbrace =>
    .ite (fun _ => paced_fail _ _) fun hfinish => ?_
  · exact (Nat.le_of_add_right_le ht).trans hle
  · refine Paced.le (paced_advance h ht (by omega) hfinish hbrace fun hj => .pure ?_) hle
    exact hj

theorem aloof_registerParameters (register : Int) (params : List String) :
    Aloof (registerParameters register params) := by
  induction params generalizing register with
  | nil => exact .pure
  | cons s params ih =>
    exact (aloof_name s).bind fun _ => (aloof_emit _ _ _ _).bind fun _ => ih _

theorem paced_functionBody (h : p.Agrees q w) (hk : 2 * k + 1 < w) (params : List String) :
    Paced k k (fun _ => 0) (functionBody p params) (functionBody q params) := by
  refine (aloof_registerParameters _ params).andThen fun _ => (paced_expect _).andThen fun _ => ?_
  refine (paced_loop h (advances_block h) () (Nat.le_refl k) hk).andThen fun _ => ?_
  exact Aloof.paced (fun _ => rfl) (Nat.le_refl _)

theorem paced_functionName : Paced k k (fun r => weight r.2) functionName functionName := by
  refine .read fun first i hfirst => ?_
  split
  · exact .read fun t j ht => .pure (ht.trans (Nat.le_of_add_right_le hfirst))
  · exact .pure hfirst

theorem paced_parameterList (h : p.Agrees q w) (hle : i + weight t ≤ k) (hk : 2 * k + 1 < w)
    (dest : Int) : Paced i k (fun _ => 0) (parameterList p dest t) (parameterList q dest t) := by
  have hi := Nat.le_of_add_right_le hle
  refine .ite (fun _ => .read fun t j ht => .ite (fun _ => .pure ?_) fun _ => ?_) fun _ =>
    paced_fail _ _
  · exact (Nat.le_of_add_right_le ht).trans hi
  · exact (paced_loop h (advances_parameters h dest) (t, [], false) ht (by omega)).le hi

theorem aloof_functionSlot (named : Option String) : Aloof (functionSlot named) := by
  refine aloof_get.bind fun state => ?_
  split
  · exact .ite .pure ((aloof_declare _).bind fun _ => .pure)
  · exact .pure

theorem paced_functionChunk (h : p.Agrees q w) (hk : 2 * k + 1 < w) (named : Option String)
    (params : List String) :
    Paced k k (fun _ => 0) (functionChunk p named params) (functionChunk q named params) :=
  (aloof_enterFunction _).andThen fun _ => (paced_functionBody h hk params).andThen fun _ =>
    aloof_leaveFunction.paced (Nat.le_refl _)

theorem aloof_makeFunction (c : Chunk) (dest : Int) (count : Nat) :
    Aloof (makeFunction c dest count place) :=
  (aloof_constant _).bind fun _ => fun _ => rfl

theorem aloof_bindFunctionName (s : String) (slot : Option Int) (dest : Int) :
    Aloof (bindFunctionName s slot dest place) := by
  refine (aloof_name s).bind fun k => ?_
  split <;> exact fun _ => rfl

theorem paced_function (h : p.Agrees q w) (hk : 2 * k + 1 < w) (power : Nat) (dest : Int) :
    Paced k k (fun _ => 0) (function p power dest place) (function q power dest place) := by
  refine paced_functionName.bind fun r i hr => ?_
  refine (paced_parameterList h hr hk dest).andThen fun params => ?_
  refine (aloof_functionSlot r.1).andThen fun slot => ?_
  refine (paced_functionChunk h hk r.1 params).andThen fun c => ?_
  refine (aloof_makeFunction c dest params.length).andThen fun _ => ?_
  split
  · exact .pure (Nat.le_refl _)
  · exact (aloof_bindFunctionName _ _ _).andThen fun _ => .pure (Nat.le_refl _)

/-! ## Statements -/

theorem paced_block (h : p.Agrees q w) (hk : 2 * k + 1 < w) :
    Paced k k (fun _ => 0) (block p) (block q) := by
  refine (aloof_modifyCurrent _).andThen fun _ => ?_
  refine (paced_loop h (advances_block h) () (Nat.le_refl k) hk).andThen fun _ => ?_
  exact Aloof.paced (fun _ => rfl) (Nat.le_refl _)

theorem paced_condition (h : p.Agrees q w) (hk : 2 * k < w) (dest : Int) :
    Paced k k (fun _ => 0) (condition p dest) (condition q dest) :=
  (paced_expect _).andThen fun _ => (paced_parse h hk _ dest).andThen fun _ => paced_expect _

theorem paced_ifStatement (h : p.Agrees q w) (hk : 2 * k + 1 < w) (dest : Int) :
    Paced k k (fun _ => 0) (ifStatement p dest) (ifStatement q dest) := by
  refine (paced_condition h (by omega) dest).andThen fun _ => ?_
  refine (aloof_emit _ _ _ _).andThen fun skip => (h.statement hk).andThen fun _ => ?_
  refine .read fun t i ht => .ite (fun _ => ?_) fun _ => ?_
  · have hi := Nat.le_of_add_right_le ht
    refine (aloof_emit _ _ _ _).andThen fun exit => aloof_here.andThen fun _ => ?_
    refine (aloof_patch _ _).andThen fun _ => (h.statement (by omega)).andThen fun _ => ?_
    exact Aloof.paced (fun _ => rfl) hi
  · exact (paced_pushBack ht).andThen fun _ => Aloof.paced (fun _ => rfl) (Nat.le_refl _)

theorem paced_whileStatement (h : p.Agrees q w) (hk : 2 * k + 1 < w) (dest : Int) :
    Paced k k (fun _ => 0) (whileStatement p dest) (whileStatement q dest) := by
  refine aloof_here.andThen fun top => (paced_condition h (by omega) dest).andThen fun _ => ?_
  refine (aloof_emit _ _ _ _).andThen fun exit => (aloof_modifyCurrent _).andThen fun _ => ?_
  exact (h.statement hk).andThen fun _ => Aloof.paced (fun _ => rfl) (Nat.le_refl _)

theorem paced_doStatement (h : p.Agrees q w) (hk : 2 * k + 1 < w) (dest : Int) :
    Paced k k (fun _ => 0) (doStatement p dest) (doStatement q dest) := by
  refine aloof_here.andThen fun top => (aloof_modifyCurrent _).andThen fun _ => ?_
  refine (h.statement hk).andThen fun _ => (paced_expect _).andThen fun _ => ?_
  refine aloof_here.andThen fun check => (paced_condition h (by omega) dest).andThen fun _ => ?_
  exact Aloof.paced (fun _ => rfl) (Nat.le_refl _)

/-- A declaration starts with a name, so there is a token to spare behind it. -/
theorem paced_variableName (hle : i + weight t ≤ k) :
    Paced i k (fun _ => 1) (variableName t) (variableName t) := by
  unfold variableName
  split
  · rename_i s ht
    exact .pure (spend hle ht nofun)
  · exact paced_fail _ _

theorem aloof_declareVariable (s : String) (name : Int) :
    Aloof (declareVariable s name place) := by
  refine aloof_get.bind fun state => .ite .pure ?_
  exact (aloof_declare s).bind fun _ => (aloof_emitAt _ _ _ _ _).bind fun _ => .pure

theorem aloof_storeVariable (slot : Option Int) (name dest : Int) :
    Aloof (storeVariable slot name dest place) := by
  unfold storeVariable
  split <;> exact fun _ => rfl

theorem aloof_clearVariable (slot : Option Int) (name dest : Int) :
    Aloof (clearVariable slot name dest place) := by
  unfold clearVariable
  split <;> exact fun _ => rfl

theorem paced_initialise (h : p.Agrees q w) (hle : i + weight t ≤ k) (hk : 2 * k < w)
    (slot : Option Int) (name dest : Int) :
    Paced i k weight (initialise p slot name dest place t) (initialise q slot name dest place t) := by
  refine .ite (fun _ => ?_) fun _ => ?_
  · have hi := Nat.le_of_add_right_le hle
    refine (paced_parse h (by omega) _ _).andThen fun _ => ?_
    exact (aloof_storeVariable _ _ _).andThen fun _ => paced_next.le hi
  · exact (aloof_clearVariable _ _ _).andThen fun _ => .pure hle

theorem advances_declarations (h : p.Agrees q w) (dest : Int) :
    (Loop.declarations dest).Advances p q w := by
  intro _ i k (hle : i ≤ k) hk
  refine .read fun t j ht => (paced_variableName ht).bind fun s j' hj' => ?_
  refine (aloof_name s).andThen fun name => (aloof_declareVariable s name).andThen fun slot => ?_
  refine .read fun u n hu => (paced_initialise h hu (by omega) slot name dest).bind fun u n' hu => ?_
  refine .ite (fun _ => .pure ?_) fun _ => .ite (fun _ => ?_) fun _ => paced_fail _ _
  · change n' + 1 ≤ k
    omega
  · refine (paced_pushBack hu).andThen fun _ => .pure ?_
    change j' + 0 ≤ k
    omega

/-- A part of a loop that is an expression, up to the sign behind it. -/
theorem paced_clause (h : p.Agrees q w) (hle : i + weight t ≤ k) (hk : 2 * k < w) (dest : Int)
    (sign : Mark) :
    Paced i k (fun _ => 0)
      (p.expression t Power.expression dest >>= fun _ => expect (.mark sign))
      (q.expression t Power.expression dest >>= fun _ => expect (.mark sign)) :=
  (paced_operand h hle hk _ dest).andThen fun _ => paced_expect _

theorem paced_forStart (h : p.Agrees q w) (hk : 2 * k + 1 < w) (dest : Int) :
    Paced k k (fun _ => 0) (forStart p dest) (forStart q dest) := by
  refine .read fun t i ht => ?_
  have hi := Nat.le_of_add_right_le ht
  refine .ite (fun _ => ?_) fun _ => .ite (fun _ => .pure hi) fun _ => ?_
  · refine (paced_loop h (advances_declarations h dest) () hi hk).andThen fun _ => ?_
    exact paced_expect _
  · exact paced_clause h ht (by omega) dest .semicolon

theorem paced_forTest (h : p.Agrees q w) (hk : 2 * k < w) (dest : Int) :
    Paced k k (fun _ => 0) (forTest p dest) (forTest q dest) := by
  refine .read fun t i ht => .ite (fun _ => .pure (Nat.le_of_add_right_le ht)) fun _ => ?_
  refine (paced_operand h ht hk _ dest).andThen fun _ => (paced_expect _).andThen fun _ => ?_
  exact Aloof.paced (fun _ => rfl) (Nat.le_refl _)

theorem paced_forStep (h : p.Agrees q w) (hk : 2 * k < w) (dest : Int) :
    Paced k k (fun _ => 0) (forStep p dest) (forStep q dest) :=
  .read fun _ _ ht => .ite (fun _ => .pure (Nat.le_of_add_right_le ht)) fun _ =>
    paced_clause h ht hk dest .rParen

theorem aloof_patchExit (exit : Option Nat) (target : Nat) : Aloof (patchExit exit target) := by
  unfold patchExit
  split
  · exact aloof_patch _ _
  · exact .pure

theorem paced_forStatement (h : p.Agrees q w) (hk : 2 * k + 1 < w) (dest : Int) :
    Paced k k (fun _ => 0) (forStatement p dest) (forStatement q dest) := by
  refine (paced_expect _).andThen fun _ => (aloof_modifyCurrent _).andThen fun _ => ?_
  refine (paced_forStart h hk dest).andThen fun _ => aloof_here.andThen fun top => ?_
  refine (paced_forTest h (by omega) dest).andThen fun exit => ?_
  refine (aloof_emit _ _ _ _).andThen fun toBody => aloof_here.andThen fun step => ?_
  refine (paced_forStep h (by omega) dest).andThen fun _ => (aloof_emit _ _ _ _).andThen fun _ => ?_
  refine aloof_here.andThen fun _ => (aloof_patch _ _).andThen fun _ => ?_
  refine (aloof_modifyCurrent _).andThen fun _ => (h.statement hk).andThen fun _ => ?_
  refine (aloof_emit _ _ _ _).andThen fun _ => aloof_here.andThen fun behind => ?_
  refine (aloof_patchExit _ _).andThen fun _ => ?_
  exact Aloof.paced (fun _ => rfl) (Nat.le_refl _)

theorem paced_returnStatement (h : p.Agrees q w) (hk : 2 * k < w) (dest : Int) :
    Paced k k (fun _ => 0) (returnStatement p dest place) (returnStatement q dest place) := by
  refine paced_atTerminator.andThen fun _ => .ite (fun _ => ?_) fun _ => ?_
  · exact Aloof.paced (fun _ => rfl) (Nat.le_refl _)
  · exact (paced_parse h hk _ dest).andThen fun _ => Aloof.paced (fun _ => rfl) (Nat.le_refl _)

theorem aloof_leaveLoop (word : Keyword) : Aloof (leaveLoop word place) := by
  refine aloof_get.bind fun state => ?_
  split
  · exact aloof_fail _ _
  · exact (aloof_emitAt _ _ _ _ _).bind fun _ => (aloof_modifyCurrent _).bind fun _ => .pure

/-! ## Productions -/

theorem paced_leading (h : p.Agrees q w) (hk : 2 * k + 1 < w) (power : Nat) (dest : Int) :
    Paced k k (fun _ => 0) (leading p t power dest) (leading q t power dest) := by
  have hk' : 2 * k < w := Nat.lt_of_succ_lt hk
  refine .ite (fun _ => paced_fail _ _) fun _ => ?_
  split
  · exact (aloof_loadConstant _ _).paced (Nat.le_refl _)
  · exact (aloof_loadConstant _ _).paced (Nat.le_refl _)
  · exact (aloof_loadName _ _).paced (Nat.le_refl _)
  · exact paced_fail _ _
  · split
    · exact paced_paren h hk' dest
    · exact paced_arrayLiteral h hk dest
    · exact paced_dictLiteral h hk dest
    · exact paced_block h hk
    all_goals first
      | exact paced_unary h hk' _ _ _
      | exact paced_stepBefore h hk' _ _
      | exact paced_fail _ _
  · split
    all_goals first
      | exact (aloof_value _ _ _ _).paced (Nat.le_refl _)
      | exact paced_unary h hk' _ _ _
      | exact paced_fail _ _
      | exact paced_function h hk power dest
      | exact paced_newInstance h hk dest
      | exact paced_delete h hk' dest
      | exact paced_ifStatement h hk dest
      | exact paced_whileStatement h hk dest
      | exact paced_doStatement h hk dest
      | exact paced_forStatement h hk dest
      | exact paced_loop h (advances_declarations h dest) () (Nat.le_refl k) hk
      | exact paced_returnStatement h hk' dest
      | exact (aloof_leaveLoop _).paced (Nat.le_refl _)

theorem advances_climb (h : p.Agrees q w) (power : Nat) (dest : Int) :
    (Loop.climb power dest).Advances p q w := by
  intro left i k (hle : i ≤ k) hk
  refine .read fun t j ht => .ite (fun _ => ?_) fun hpower => ?_
  · exact (paced_pushBack ht).andThen fun _ => .pure hle
  · have hfinish : t.kind ≠ .finish := fun ht => hpower (by rw [ht]; exact Nat.zero_le power)
    have hj := spend ht rfl hfinish
    refine (paced_trailing h (by omega) left dest).andThen fun left => .pure ?_
    exact hj.trans hle

/-- No expression starts with the end. -/
theorem expression_finish (p : Productions) (ht : t.kind = .finish) (power : Nat) (dest : Int) :
    expression p t power dest = fail (.unexpected .finish) t.position := by
  unfold expression leading
  rw [ht]
  rfl

theorem paced_expression (h : p.Agrees q w) (hk : 2 * (k + weight t) ≤ w) (power : Nat) (dest : Int) :
    Paced k k (fun _ => 0) (expression p t power dest) (expression q t power dest) := by
  by_cases ht : t.kind = .finish
  · rw [expression_finish p ht, expression_finish q ht]
    exact paced_fail _ _
  · rw [weight, if_neg ht] at hk
    refine (paced_leading h (by omega) power dest).andThen fun left => ?_
    refine .ite (fun _ => .pure (Nat.le_refl _)) fun _ => ?_
    exact paced_loop h (advances_climb h power dest) left (Nat.le_refl k) (by omega)

/-- What stands behind the expression of a statement. -/
theorem paced_statementEnd : Paced k k (fun _ => 0) (do
      let t ← next
      if t.kind = .mark .semicolon then return ()
      else if isTerminator t.kind then pushBack t
      else fail (.expected (.sign .semicolon) t.kind) t.position) (do
      let t ← next
      if t.kind = .mark .semicolon then return ()
      else if isTerminator t.kind then pushBack t
      else fail (.expected (.sign .semicolon) t.kind) t.position) :=
  .read fun _ _ ht => .ite (fun _ => .pure (Nat.le_of_add_right_le ht)) fun _ =>
    .ite (fun _ => paced_pushBack ht) fun _ => paced_fail _ _

theorem paced_statement (h : p.Agrees q w) (hk : 2 * k + 1 ≤ w) :
    Paced k k (fun _ => 0) (statement p) (statement q) := by
  refine .read fun t i ht => .ite (fun _ => .pure (Nat.le_of_add_right_le ht)) fun _ =>
    .ite (fun _ => paced_pushBack ht) fun _ => ?_
  refine (paced_operand h ht (by omega) _ _).andThen fun left => ?_
  exact .ite (fun _ => .pure (Nat.le_refl _)) fun _ => paced_statementEnd

/-- A statement that does not start with a token that ends it takes that token. -/
theorem paced_statement_advance (h : p.Agrees q w) (hk : 2 * (k + 1) + 1 ≤ w)
    (hfinish : t.kind ≠ .finish) (hbrace : t.kind ≠ .mark .rBrace) :
    Paced k k (fun _ => 0) (pushBack t >>= fun _ => statement p)
      (pushBack t >>= fun _ => statement q) := by
  refine Paced.reread ?_
  refine .ite (fun _ => .pure (Nat.le_refl _)) fun hsemicolon => .ite (fun hend => ?_) fun _ => ?_
  · simp [isTerminator, hfinish, hbrace, hsemicolon] at hend
  · refine (h.expression t _ _ ?_).andThen fun left => ?_
    · rw [weight, if_neg hfinish]
      omega
    · exact .ite (fun _ => .pure (Nat.le_refl _)) fun _ => paced_statementEnd

/-- The grammar agrees with itself below a measure, if the fuel is not below. -/
theorem agrees_productions (w : Nat) {m n : Nat} (hm : w ≤ m) (hn : w ≤ n) :
    (productions m).Agrees (productions n) w := by
  induction w generalizing m n with
  | zero => exact ⟨⟨by omega, by omega⟩, fun _ _ _ _ => by omega, by omega, fun _ _ => by omega⟩
  | succ w ih =>
    obtain ⟨m, rfl⟩ := Nat.exists_eq_succ_of_ne_zero (Nat.ne_of_gt (Nat.zero_lt_of_lt hm))
    obtain ⟨n, rfl⟩ := Nat.exists_eq_succ_of_ne_zero (Nat.ne_of_gt (Nat.zero_lt_of_lt hn))
    have h := ih (Nat.le_of_succ_le_succ hm) (Nat.le_of_succ_le_succ hn)
    refine ⟨⟨?_, ?_⟩, fun first power dest k hk => ?_, fun hk => ?_,
      fun hfinish hbrace hk => ?_⟩
    · change w + 1 ≤ 2 * (m + 1) + 1
      omega
    · change w + 1 ≤ 2 * (n + 1) + 1
      omega
    · exact paced_expression h (Nat.le_of_lt_succ hk) power dest
    · exact paced_statement h (Nat.le_of_lt_succ hk)
    · exact paced_statement_advance h (Nat.le_of_lt_succ hk) hfinish hbrace

/-! ## Scripts -/

theorem advances_script (h : p.Agrees q w) : Loop.script.Advances p q w := by
  intro _ i k (hle : i ≤ k) hk
  refine .read fun t j ht => .ite (fun _ => .pure ?_) fun hfinish =>
    .ite (fun _ => paced_fail _ _) fun hbrace => ?_
  · exact (Nat.le_of_add_right_le ht).trans hle
  · refine Paced.le (paced_advance h ht (by omega) hfinish hbrace fun hj => .pure ?_) hle
    exact hj

theorem paced_script (h : p.Agrees q w) (hk : 2 * k + 1 < w) :
    Paced k k (fun _ => 0) (script p) (script q) :=
  (paced_loop h (advances_script h) () (Nat.le_refl k) hk).andThen fun _ =>
    Aloof.paced (fun _ => rfl) (Nat.le_refl _)

end Compile

end ScriptEngine
