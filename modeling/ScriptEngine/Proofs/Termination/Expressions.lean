import ScriptEngine.Proofs.Termination.Loops

/-!
# Expressions make progress

One lemma for each construct, in two versions of the grammar whose entry points agree below a measure
(`Productions.Agrees`). The measure of a call counts each of the tokens ahead twice, the one in hand
included, and a statement counts for one more: it goes on to an expression when it has read a token,
and an expression goes on to a statement when its first token is worked off.

`ScriptEngine.Proofs.Termination.Statements` goes on with functions and statements.
-/

namespace ScriptEngine

open Compile (weight Paced pushBack)

/-- The entry points of two grammars agree wherever the measure of the call is below `w`. A statement
that does not start with a token that ends it takes that token. -/
structure Productions.Agrees (p q : Productions) (w : Nat) : Prop where
  budgets : w ≤ 2 * p.budget + 1 ∧ w ≤ 2 * q.budget + 1
  expression : ∀ (first : Token) (power : Nat) (dest : Int) {k : Nat}, 2 * (k + weight first) < w →
    Paced k k (fun _ => 0) (p.expression first power dest) (q.expression first power dest)
  statement : ∀ {k : Nat}, 2 * k + 1 < w → Paced k k (fun _ => 0) p.statement q.statement
  advance : ∀ {t : Token} {k : Nat}, t.kind ≠ .finish → t.kind ≠ .mark .rBrace →
    2 * (k + 1) + 1 < w → Paced k k (fun _ => 0) (pushBack t >>= fun _ => p.statement)
      (pushBack t >>= fun _ => q.statement)

namespace Compile

variable {p q : Productions} {w i k : Nat} {t : Token} {place : Position}

/-- An expression from a token on that was just read. -/
theorem paced_operand (h : p.Agrees q w) (hle : i + weight t ≤ k) (hk : 2 * k < w) (power : Nat)
    (dest : Int) :
    Paced i k (fun _ => 0) (p.expression t power dest) (q.expression t power dest) :=
  (h.expression t power dest (by omega)).le (Nat.le_of_add_right_le hle)

theorem paced_parse (h : p.Agrees q w) (hk : 2 * k < w) (power : Nat) (dest : Int) :
    Paced k k (fun _ => 0) (parse p power dest) (parse q power dest) :=
  .read fun _ _ hle => paced_operand h hle hk power dest

/-- A loop may take more turns than there are tokens ahead. -/
theorem paced_loop {L : Loop} (h : p.Agrees q w) (hL : L.Advances p q w) (a : L.State)
    (hle : i + L.inHand a ≤ k) (hk : 2 * k + 1 < w) :
    Paced i k (fun _ => 0) (L.run p a p.budget) (L.run q a q.budget) := by
  obtain ⟨hp, hq⟩ := h.budgets
  exact hL.run a hle hk (by omega) (by omega)

/-! ## Names and unary operators -/

theorem aloof_value (op : Op) (a b c : Int) :
    Aloof (emitAt place op a b c >>= fun _ => pure Operand.temp) :=
  fun _ => rfl

theorem aloof_loadConstant (v : Value) (dest : Int) : Aloof (loadConstant v dest place) :=
  fun _ => rfl

theorem aloof_loadName (s : String) (dest : Int) : Aloof (loadName s dest place) := by
  refine aloof_get.bind fun state => ?_
  split
  · exact (aloof_emitAt _ _ _ _ _).bind fun _ => .pure
  · exact (aloof_name s).bind fun k => .ite (fun _ => rfl) (fun _ => rfl)

theorem paced_unary (h : p.Agrees q w) (hk : 2 * k < w) (op : Op) (power : Nat) (dest : Int) :
    Paced k k (fun _ => 0) (unary p op power dest place) (unary q op power dest place) :=
  (paced_parse h hk power dest).andThen fun _ => (aloof_value _ _ _ _).paced (Nat.le_refl _)

theorem paced_paren (h : p.Agrees q w) (hk : 2 * k < w) (dest : Int) :
    Paced k k (fun _ => 0) (paren p dest) (paren q dest) := by
  have hclose : ∀ left : Operand, Paced k k (fun _ => 0)
      (expect (.mark .rParen) >>= fun _ => pure left)
      (expect (.mark .rParen) >>= fun _ => pure left) := fun left =>
    (paced_expect _).andThen fun _ => .pure (Nat.le_refl _)
  refine .read fun first i hfirst => ?_
  dsimp only
  split
  · refine .read fun second j hsecond => .ite (fun _ => ?_) fun _ => ?_
    · exact (paced_unary h (by omega) _ _ dest).le (by omega)
    · -- The conversion word is still in hand.
      refine (paced_pushBack hsecond).andThen fun _ => ?_
      exact (paced_operand h hfirst hk _ dest).andThen hclose
  · exact (paced_operand h hfirst hk _ dest).andThen hclose

/-! ## Lists -/

theorem advances_arguments (h : p.Agrees q w) : Loop.arguments.Advances p q w := by
  intro register i k (hle : i ≤ k) hk
  refine (paced_parse h (by omega) _ register).andThen fun _ => .read fun t j ht => ?_
  refine .ite (fun hcomma => ?_) fun _ => .ite (fun _ => .pure ?_) fun _ => paced_fail _ _
  · exact .pure ((spend ht hcomma nofun).trans hle)
  · exact (Nat.le_of_add_right_le ht).trans hle

theorem paced_arguments (h : p.Agrees q w) (hk : 2 * k + 1 < w) (first : Int) :
    Paced k k (fun _ => 0) (arguments p first) (arguments q first) := by
  refine .read fun t i ht => .ite (fun _ => .pure (Nat.le_of_add_right_le ht)) fun _ => ?_
  refine (paced_pushBack ht).andThen fun _ => ?_
  exact paced_loop h (advances_arguments h) first (Nat.le_refl k) hk

theorem advances_array (h : p.Agrees q w) : Loop.array.Advances p q w := by
  intro register i k (hle : i ≤ k) hk
  refine .read fun t j ht => .ite (fun _ => .pure ?_) fun _ => .ite (fun hcomma => ?_) fun _ => ?_
  · exact (Nat.le_of_add_right_le ht).trans hle
  · refine (aloof_emit _ _ _ _).andThen fun _ => .pure ?_
    exact (spend ht hcomma nofun).trans hle
  · refine (paced_operand h ht (by omega) _ register).andThen fun _ => .read fun t j ht => ?_
    refine .ite (fun hcomma => ?_) fun _ => .ite (fun _ => .pure ?_) fun _ => paced_fail _ _
    · exact .pure ((spend ht hcomma nofun).trans hle)
    · exact (Nat.le_of_add_right_le ht).trans hle

theorem paced_arrayLiteral (h : p.Agrees q w) (hk : 2 * k + 1 < w) (dest : Int) :
    Paced k k (fun _ => 0) (arrayLiteral p dest place) (arrayLiteral q dest place) := by
  refine (paced_loop h (advances_array h) (dest + 1) (Nat.le_refl k) hk).andThen fun _ => ?_
  exact (aloof_value _ _ _ _).paced (Nat.le_refl _)

theorem paced_dictKey (h : p.Agrees q w) (hle : i + weight t ≤ k) (hk : 2 * k < w) (register : Int) :
    Paced i k (fun _ => 0) (dictKey p t register) (dictKey q t register) := by
  have hsep : Paced k k (fun _ => 0) (do
      let sep ← next
      if sep.kind = .mark .arrow || sep.kind = .mark .colon then return ()
      else fail (.expected (.sign .arrow) sep.kind) sep.position) (do
      let sep ← next
      if sep.kind = .mark .arrow || sep.kind = .mark .colon then return ()
      else fail (.expected (.sign .arrow) sep.kind) sep.position) :=
    .read fun _ _ ht => .ite (fun _ => .pure (Nat.le_of_add_right_le ht)) fun _ => paced_fail _ _
  unfold dictKey
  dsimp only
  split
  · refine .read fun behind j hbehind => .ite (fun _ => ?_) fun _ => ?_
    · refine (aloof_name _).andThen fun _ => ?_
      exact ((aloof_emit _ _ _ _).bind fun _ => .pure).paced (by omega)
    · refine (paced_pushBack hbehind).andThen fun _ => ?_
      exact (paced_operand h hle hk _ register).andThen fun _ => hsep
  · exact (paced_operand h hle hk _ register).andThen fun _ => hsep

theorem advances_dictionary (h : p.Agrees q w) : Loop.dictionary.Advances p q w := by
  intro register i k (hle : i ≤ k) hk
  refine .read fun t j ht => .ite (fun _ => .pure ?_) fun _ => ?_
  · exact (Nat.le_of_add_right_le ht).trans hle
  · refine (paced_dictKey h ht (by omega) register).andThen fun _ => ?_
    refine (paced_parse h (by omega) _ _).andThen fun _ => .read fun t j ht => ?_
    refine .ite (fun hcomma => ?_) fun _ => .ite (fun _ => .pure ?_) fun _ => paced_fail _ _
    · exact .pure ((spend ht hcomma nofun).trans hle)
    · exact (Nat.le_of_add_right_le ht).trans hle

theorem paced_dictLiteral (h : p.Agrees q w) (hk : 2 * k + 1 < w) (dest : Int) :
    Paced k k (fun _ => 0) (dictLiteral p dest place) (dictLiteral q dest place) := by
  refine (paced_loop h (advances_dictionary h) (dest + 1) (Nat.le_refl k) hk).andThen fun _ => ?_
  exact (aloof_value _ _ _ _).paced (Nat.le_refl _)

/-! ## Targets -/

theorem paced_assign (h : p.Agrees q w) (hk : 2 * k < w) (left : Operand) (op? : Option Op)
    (dest : Int) :
    Paced k k (fun _ => 0) (assign p left op? dest place) (assign q left op? dest place) := by
  unfold assign
  split
  · refine (aloof_erase _).andThen fun _ => (paced_parse h hk _ _).andThen fun _ => ?_
    exact (aloof_value _ _ _ _).paced (Nat.le_refl _)
  · refine (paced_parse h hk _ _).andThen fun _ => Aloof.paced ?_ (Nat.le_refl _)
    exact fun _ => rfl
  · refine (aloof_erase _).andThen fun _ => (paced_parse h hk _ _).andThen fun _ => ?_
    exact Aloof.paced (fun _ => rfl) (Nat.le_refl _)
  · refine (aloof_retarget _ _ _ _).andThen fun t => (paced_parse h hk _ _).andThen fun _ => ?_
    exact Aloof.paced (fun _ => rfl) (Nat.le_refl _)
  · exact paced_fail _ _

theorem paced_stepBefore (h : p.Agrees q w) (hk : 2 * k < w) (op : Op) (dest : Int) :
    Paced k k (fun _ => 0) (stepBefore p op dest place) (stepBefore q op dest place) := by
  refine (paced_parse h hk _ dest).andThen fun left => ?_
  split
  · exact Aloof.paced (fun _ => rfl) (Nat.le_refl _)
  · exact Aloof.paced (fun _ => rfl) (Nat.le_refl _)
  · exact paced_fail _ _

theorem aloof_stepAfter (left : Operand) (op : Op) (dest : Int) :
    Aloof (stepAfter left op dest place) := by
  unfold stepAfter
  split
  · exact fun _ => rfl
  · exact fun _ => rfl
  · exact aloof_fail _ _

theorem paced_delete (h : p.Agrees q w) (hk : 2 * k < w) (dest : Int) :
    Paced k k (fun _ => 0) (delete p dest place) (delete q dest place) := by
  refine (paced_parse h hk _ dest).andThen fun left => Aloof.paced ?_ (Nat.le_refl _)
  split
  · exact fun _ => rfl
  · exact fun _ => rfl
  · exact (aloof_fail _ _).bind fun _ => fun _ => rfl

/-! ## Choices -/

theorem paced_ternary (h : p.Agrees q w) (hk : 2 * k < w) (dest : Int) :
    Paced k k (fun _ => 0) (ternary p dest place) (ternary q dest place) := by
  refine (aloof_emitAt _ _ _ _ _).andThen fun skip => (paced_parse h hk _ dest).andThen fun _ => ?_
  refine (paced_expect _).andThen fun _ => (aloof_emitAt _ _ _ _ _).andThen fun exit => ?_
  refine aloof_here.andThen fun _ => (aloof_patch _ _).andThen fun _ => ?_
  refine (paced_parse h hk _ dest).andThen fun _ => ?_
  exact Aloof.paced (fun _ => rfl) (Nat.le_refl _)

theorem paced_shortCircuit (h : p.Agrees q w) (hk : 2 * k < w) (leave op decided : Op) (power : Nat)
    (dest : Int) :
    Paced k k (fun _ => 0) (shortCircuit p leave op decided power dest place)
      (shortCircuit q leave op decided power dest place) := by
  refine (aloof_emitAt _ _ _ _ _).andThen fun skip => (paced_parse h hk _ _).andThen fun _ => ?_
  exact Aloof.paced (fun _ => rfl) (Nat.le_refl _)

/-! ## Continuations -/

theorem paced_dotMember (dest : Int) :
    Paced k k (fun _ => 0) (dotMember dest place) (dotMember dest place) := by
  refine .read fun t i ht => Aloof.paced ?_ (Nat.le_of_add_right_le ht)
  split
  · exact fun _ => rfl
  · exact aloof_fail _ _

theorem paced_indexMember (h : p.Agrees q w) (hk : 2 * k < w) (dest : Int) :
    Paced k k (fun _ => 0) (indexMember p dest place) (indexMember q dest place) := by
  refine (paced_parse h hk _ _).andThen fun _ => (paced_expect _).andThen fun _ => ?_
  exact Aloof.paced (fun _ => rfl) (Nat.le_refl _)

theorem paced_trailing (h : p.Agrees q w) (hk : 2 * k + 1 < w) (left : Operand) (dest : Int) :
    Paced k k (fun _ => 0) (trailing p t left dest) (trailing q t left dest) := by
  have hk' : 2 * k < w := Nat.lt_of_succ_lt hk
  unfold trailing
  dsimp only
  split
  · refine (paced_parse h hk' _ _).andThen fun _ => ?_
    exact (aloof_value _ _ _ _).paced (Nat.le_refl _)
  · exact paced_assign h hk' _ _ _
  · split
    · exact paced_assign h hk' _ _ _
    · exact paced_parse h hk' _ _
    · exact paced_ternary h hk' _
    · exact paced_shortCircuit h hk' _ _ _ _ _
    · exact paced_shortCircuit h hk' _ _ _ _ _
    · exact (aloof_stepAfter _ _ _).paced (Nat.le_refl _)
    · exact (aloof_stepAfter _ _ _).paced (Nat.le_refl _)
    · exact paced_dotMember _
    · exact paced_indexMember h hk' _
    · refine (paced_arguments h hk _).andThen fun _ => ?_
      exact Aloof.paced (fun _ => rfl) (Nat.le_refl _)
    · exact paced_fail _ _

/-! ## Instances -/

theorem advances_classPath (h : p.Agrees q w) (dest : Int) :
    (Loop.classPath dest).Advances p q w := by
  intro fallback i k (hle : i ≤ k) hk
  refine .read fun t j ht => .ite (fun hdot => ?_) fun _ => ?_
  · have hj := spend ht hdot nofun
    refine (paced_trailing h (by omega) _ _).andThen fun _ => .pure ?_
    exact hj.trans hle
  · exact (paced_pushBack ht).andThen fun _ => .pure hle

/-- What stands behind the keyword of an instance, from a token on that was just read. -/
theorem paced_instance (h : p.Agrees q w) (hle : i + weight t ≤ k) (hk : 2 * k + 1 < w)
    (fallback dest : Int) :
    let rest (p : Productions) : Compile Operand := do
      let _ ← p.expression t Power.primary dest
      let fallback ← classPath p fallback dest p.budget
      let _ ← emitAt place .newObject dest dest fallback
      let t ← next
      if t.kind = .mark .lParen then
        let behind ← arguments p (dest + 1)
        let _ ← emitAt place .call dest (dest + 1) behind
      else
        pushBack t
        let _ ← emitAt place .call dest (dest + 1) (dest + 1)
      return .temp
    Paced i k (fun _ => 0) (rest p) (rest q) := by
  refine (paced_operand h hle (by omega) _ dest).andThen fun _ => ?_
  refine (paced_loop h (advances_classPath h dest) fallback (Nat.le_refl k) hk).andThen fun _ => ?_
  refine (aloof_emitAt _ _ _ _ _).andThen fun _ => .read fun t j ht => .ite (fun _ => ?_) fun _ => ?_
  · have hj := Nat.le_of_add_right_le ht
    refine (paced_arguments h (by omega) _).andThen fun _ => ?_
    exact Aloof.paced (fun _ => rfl) hj
  · refine (paced_pushBack ht).andThen fun _ => ?_
    exact Aloof.paced (fun _ => rfl) (Nat.le_refl _)

theorem paced_newInstance (h : p.Agrees q w) (hk : 2 * k + 1 < w) (dest : Int) :
    Paced k k (fun _ => 0) (newInstance p dest place) (newInstance q dest place) := by
  refine .read fun t i ht => ?_
  split
  · exact (aloof_name _).andThen fun fallback => paced_instance h ht hk fallback dest
  · exact paced_instance h ht hk (-1) dest

end Compile

end ScriptEngine
