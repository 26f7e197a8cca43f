import ScriptEngine.Proofs.Reading.Trace

/-!
# Expressions consume tokens in order

One lemma for each construct of the grammar, all under the assumption that the two entry points
consume tokens in order if there is fuel for the tokens ahead (`Productions.Feeding`). With `k`
tokens ahead of it, an expression needs `2 * k + 3` and a statement `2 * k + 2`: each construct reads
a token before it goes on to another one, and a statement opens at most one expression before that.
The loops of the grammar read a token on every turn.

`ScriptEngine.Proofs.Reading.Statements` goes on with functions and statements, and removes the
assumption.
-/

namespace ScriptEngine

/-- The entry points of the grammar consume tokens in order, if the fuel suffices. An expression does
not start with the end, and a statement that does not start with a token that ends it reads one. -/
structure Productions.Feeding (p : Productions) (cs : List Char) : Prop where
  expression : ∀ (first : Token) (power : Nat) (dest : Int) (k : Nat), first.kind ≠ .finish →
    first.position.Marks cs → 2 * k + 3 ≤ p.budget →
      Compile.Consumes cs (Compile.Between cs k) (p.expression first power dest)
        fun _ => Compile.Between cs k
  finish : ∀ (first : Token) (power : Nat) (dest : Int) (k : Nat), first.kind = .finish →
    1 ≤ p.budget → Compile.Consumes cs (Compile.Held cs first k) (p.expression first power dest)
      fun _ _ _ => False
  statement : ∀ k, 2 * k + 2 ≤ p.budget →
    Compile.Consumes cs (Compile.Between cs k) p.statement fun _ => Compile.Between cs k
  advance : ∀ (t : Token) (k : Nat), t.kind ≠ .finish → t.kind ≠ .mark .rBrace →
    2 * k + 4 ≤ p.budget →
      Compile.Consumes cs (Compile.Given cs t (k + 1)) p.statement fun _ => Compile.Between cs k

namespace Compile

variable {p : Productions} {cs : List Char} {k : Nat} {t : Token} {place : Position}

/-- An expression from a token on that was just read. -/
theorem consumes_operand (hp : p.Feeding cs) (hk : 2 * k + 1 ≤ p.budget) (power : Nat) (dest : Int) :
    Consumes cs (Held cs t k) (p.expression t power dest) fun _ => Between cs k := by
  by_cases ht : t.kind = .finish
  · exact (hp.finish t power dest k ht (by omega)).after fun _ _ _ h => h.elim
  · refine .spend ht fun j hj hmarks => ?_
    exact (hp.expression t power dest j ht hmarks (by omega)).after fun _ _ _ h => h.mono (by omega)

theorem consumes_parse (hp : p.Feeding cs) (hk : 2 * k + 1 ≤ p.budget) (power : Nat) (dest : Int) :
    Consumes cs (Between cs k) (parse p power dest) fun _ => Between cs k :=
  consumes_read.bind fun _ => consumes_operand hp hk power dest

/-- A token that is none of those that the grammar wants. -/
theorem consumes_unwanted {α : Type} {Q : α → List Act → CompileState → Prop} (cause : GrammarFault) :
    Consumes cs (Held cs t k) (fail cause t.position) Q :=
  .assume (fun _ _ h => h.marks) fun hmarks => consumes_fail stable_held cause hmarks

/-- The end of a construct at a token. -/
theorem consumes_done {α : Type} {a : α} {kind : Token.Kind} (ht : t.kind = kind)
    (hkind : kind ≠ .finish) : Consumes cs (Held cs t k) (pure a) fun _ => Between cs k :=
  .pure fun _ _ h => h.between (ht ▸ hkind)

/-! ## Names and unary operators -/

/-- An instruction whose value is a temporary. -/
theorem tidy_value (h : place.Marks cs) (op : Op) (a b c : Int) :
    Tidy cs (emitAt place op a b c >>= fun _ => pure Operand.temp) fun _ => True :=
  (tidy_emitAt h op a b c).bind fun _ => .pure trivial

theorem tidy_loadConstant (h : place.Marks cs) (v : Value) (dest : Int) :
    Tidy cs (loadConstant v dest place) fun _ => True :=
  (tidy_constant (k := .value v) nofun).bind fun _ => tidy_value h _ _ _ _

theorem tidy_loadName (h : place.Marks cs) (s : String) (dest : Int) :
    Tidy cs (loadName s dest place) fun _ => True := by
  refine .get_bind (fun state => ?_) fun _ _ => rfl
  split
  · exact (tidy_emitAt h _ _ _ _).bind fun _ => .pure trivial
  · have hload : ∀ k : Int, Tidy cs (do
        let _ ← emitAt place .loadConst dest k
        let load ← emitAt place .dot dest 0 dest
        return Operand.member 0 dest load) fun _ => True := fun k =>
      (tidy_emitAt h _ _ _ _).bind fun _ => (tidy_emitAt h _ _ _ _).bind fun _ => .pure trivial
    refine (tidy_name s).bind fun k => .ite ?_ (hload k)
    exact (tidy_emitAt h _ _ _ _).bind fun _ => hload k

theorem consumes_unary (hp : p.Feeding cs) (hk : 2 * k + 1 ≤ p.budget) (h : place.Marks cs) (op : Op)
    (power : Nat) (dest : Int) :
    Consumes cs (Between cs k) (unary p op power dest place) fun _ => Between cs k :=
  (consumes_parse hp hk power dest).bind fun _ => (tidy_value h _ _ _ _).last stable_between

theorem consumes_paren (hp : p.Feeding cs) (hk : 2 * k + 2 ≤ p.budget) (dest : Int) :
    Consumes cs (Between cs k) (paren p dest) fun _ => Between cs k := by
  refine consumes_read.bind fun first => ?_
  have hclose : ∀ left : Operand, Consumes cs (Between cs k)
      (expect (.mark .rParen) >>= fun _ => pure left) fun _ => Between cs k := fun left =>
    (consumes_expect (by nofun)).bind fun _ => .pure fun _ _ h => h
  dsimp only
  split
  · rename_i op hop
    -- A conversion word is read for good, whatever follows it.
    have hfirst : first.kind ≠ .finish := fun heq => by rw [heq] at hop; cases hop
    refine .spend hfirst fun j hj hmarks => consumes_read.bind fun second =>
      .ite (fun hsecond => ?_) fun _ => ?_
    · refine .spend (by rw [hsecond]; nofun) fun i hi _ => ?_
      exact (consumes_unary hp (by omega) hmarks op _ dest).after fun _ _ _ h => h.mono (by omega)
    · refine consumes_return.bind fun _ => ?_
      refine (hp.expression first _ dest j hfirst hmarks (by omega)).bind fun left => ?_
      exact (hclose left).before fun _ _ h => h.mono (by omega)
  · exact (consumes_operand hp (by omega) _ dest).bind hclose

/-! ## Lists -/

theorem consumes_argumentsFrom (hp : p.Feeding cs) (hk : 2 * k + 2 ≤ p.budget) (fuel : Nat)
    (hfuel : k < fuel) (register : Int) :
    Consumes cs (Between cs k) (argumentsFrom p register fuel) fun _ => Between cs k := by
  induction fuel generalizing k register with
  | zero => omega
  | succ fuel ih =>
    refine (consumes_parse hp (by omega) _ register).bind fun _ => consumes_read.bind fun t => ?_
    refine .ite (fun ht => ?_) fun _ => .ite (fun ht => consumes_done ht nofun) fun _ =>
      consumes_unwanted _
    refine .spend (by rw [ht]; nofun) fun j hj _ => ?_
    exact (ih (by omega) (by omega) _).after fun _ _ _ h => h.mono (by omega)

theorem consumes_arguments (hp : p.Feeding cs) (hk : 2 * k + 2 ≤ p.budget) (first : Int) :
    Consumes cs (Between cs k) (arguments p first) fun _ => Between cs k :=
  consumes_read.bind fun _ => .ite (fun ht => consumes_done ht nofun) fun _ =>
    consumes_return.bind fun _ => consumes_argumentsFrom hp hk _ (by omega) first

theorem consumes_arrayItems (hp : p.Feeding cs) (hk : 2 * k + 2 ≤ p.budget) (fuel : Nat)
    (hfuel : k < fuel) (register : Int) :
    Consumes cs (Between cs k) (arrayItems p register fuel) fun _ => Between cs k := by
  induction fuel generalizing k register with
  | zero => omega
  | succ fuel ih =>
    refine consumes_read.bind fun t => .ite (fun ht => consumes_done ht nofun) fun _ =>
      .ite (fun ht => ?_) fun _ => ?_
    · refine .spend (by rw [ht]; nofun) fun j hj _ => (tidy_emit _ _ _ _).andThen stable_between
        fun _ _ => ?_
      exact (ih (by omega) (by omega) _).after fun _ _ _ h => h.mono (by omega)
    · refine (consumes_operand hp (by omega) _ register).bind fun _ => consumes_read.bind fun t => ?_
      refine .ite (fun ht => ?_) fun _ => .ite (fun ht => consumes_done ht nofun) fun _ =>
        consumes_unwanted _
      refine .spend (by rw [ht]; nofun) fun j hj _ => ?_
      exact (ih (by omega) (by omega) _).after fun _ _ _ h => h.mono (by omega)

theorem consumes_arrayLiteral (hp : p.Feeding cs) (hk : 2 * k + 2 ≤ p.budget) (h : place.Marks cs)
    (dest : Int) : Consumes cs (Between cs k) (arrayLiteral p dest place) fun _ => Between cs k :=
  (consumes_arrayItems hp hk _ (by omega) _).bind fun _ => (tidy_value h _ _ _ _).last stable_between

theorem consumes_dictKey (hp : p.Feeding cs) (hk : 2 * k + 2 ≤ p.budget) (register : Int) :
    Consumes cs (Held cs t k) (dictKey p t register) fun _ => Between cs k := by
  have hsep : Consumes cs (Between cs k) (do
      let sep ← next
      if sep.kind = .mark .arrow || sep.kind = .mark .colon then return ()
      else fail (.expected (.sign .arrow) sep.kind) sep.position) fun _ => Between cs k := by
    refine consumes_read.bind fun sep => .ite (fun hsep => ?_) fun _ => consumes_unwanted _
    simp only [Bool.or_eq_true, decide_eq_true_eq] at hsep
    exact .pure fun _ _ h => h.between (by rcases hsep with hsep | hsep <;> rw [hsep] <;> nofun)
  unfold dictKey
  dsimp only
  split
  · rename_i s ht
    -- A name may be the whole key, if a colon follows; otherwise it starts an expression.
    have hname : t.kind ≠ .finish := by rw [ht]; nofun
    refine .spend hname fun j hj hmarks => consumes_read.bind fun behind =>
      .ite (fun hbehind => ?_) fun _ => ?_
    · refine .spend (by rw [hbehind]; nofun) fun i hi _ => ?_
      refine ((tidy_name s).bind fun _ => (tidy_emit _ _ _ _).bind fun _ =>
        .pure (R := fun _ => True) trivial).last stable_between |>.after fun _ _ _ h => ?_
      exact h.mono (by omega)
    · refine consumes_return.bind fun _ => ?_
      refine (hp.expression t _ register j hname hmarks (by omega)).bind fun _ => ?_
      exact hsep.before fun _ _ h => h.mono (by omega)
  · exact (consumes_operand hp (by omega) _ register).bind fun _ => hsep

theorem consumes_dictEntries (hp : p.Feeding cs) (hk : 2 * k + 2 ≤ p.budget) (fuel : Nat)
    (hfuel : k < fuel) (register : Int) :
    Consumes cs (Between cs k) (dictEntries p register fuel) fun _ => Between cs k := by
  induction fuel generalizing k register with
  | zero => omega
  | succ fuel ih =>
    refine consumes_read.bind fun t => .ite (fun ht => consumes_done ht nofun) fun _ => ?_
    refine (consumes_dictKey hp hk register).bind fun _ => ?_
    refine (consumes_parse hp (by omega) _ _).bind fun _ => consumes_read.bind fun t => ?_
    refine .ite (fun ht => ?_) fun _ => .ite (fun ht => consumes_done ht nofun) fun _ =>
      consumes_unwanted _
    refine .spend (by rw [ht]; nofun) fun j hj _ => ?_
    exact (ih (by omega) (by omega) _).after fun _ _ _ h => h.mono (by omega)

theorem consumes_dictLiteral (hp : p.Feeding cs) (hk : 2 * k + 2 ≤ p.budget) (h : place.Marks cs)
    (dest : Int) : Consumes cs (Between cs k) (dictLiteral p dest place) fun _ => Between cs k :=
  (consumes_dictEntries hp hk _ (by omega) _).bind fun _ => (tidy_value h _ _ _ _).last stable_between

/-! ## Targets -/

theorem consumes_assign (hp : p.Feeding cs) (hk : 2 * k + 1 ≤ p.budget) (h : place.Marks cs)
    (left : Operand) (op? : Option Op) (dest : Int) :
    Consumes cs (Between cs k) (assign p left op? dest place) fun _ => Between cs k := by
  -- The last two instructions of a write to a member.
  have hset : ∀ receiver key t : Int, Tidy cs (do
      let _ ← emitAt place .dotSet receiver key t
      let _ ← emitAt place .copy dest t
      return Operand.temp) fun _ => True := fun _ _ _ =>
    (tidy_emitAt h _ _ _ _).bind fun _ => tidy_value h _ _ _ _
  unfold assign
  split
  · refine (tidy_erase _).andThen stable_between fun _ _ => ?_
    exact (consumes_parse hp hk _ _).bind fun _ => (tidy_value h _ _ _ _).last stable_between
  · refine (consumes_parse hp hk _ _).bind fun _ => Tidy.last (R := fun _ => True) ?_ stable_between
    exact (tidy_emitAt h _ _ _ _).bind fun _ => tidy_value h _ _ _ _
  · refine (tidy_erase _).andThen stable_between fun _ _ => ?_
    exact (consumes_parse hp hk _ _).bind fun _ => (hset _ _ _).last stable_between
  · refine (tidy_retarget _ _ _ _).andThen stable_between fun t _ => ?_
    refine (consumes_parse hp hk _ _).bind fun _ => Tidy.last (R := fun _ => True) ?_ stable_between
    exact (tidy_emitAt h _ _ _ _).bind fun _ => hset _ _ _
  · exact consumes_fail stable_between _ h

/-- The instructions of a step on a member. -/
theorem tidy_stepMember (h : place.Marks cs) (load : Nat) (op : Op) (dest receiver key : Int)
    (result : Int → Int) :
    Tidy cs (do
      let t ← retarget load dest receiver key
      let _ ← emitAt place op (result t) t
      let _ ← emitAt place .dotSet receiver key t
      let _ ← emitAt place .copy dest (result t)
      return Operand.temp) fun _ => True :=
  (tidy_retarget _ _ _ _).bind fun _ => (tidy_emitAt h _ _ _ _).bind fun _ =>
    (tidy_emitAt h _ _ _ _).bind fun _ => tidy_value h _ _ _ _

theorem consumes_stepBefore (hp : p.Feeding cs) (hk : 2 * k + 1 ≤ p.budget) (h : place.Marks cs)
    (op : Op) (dest : Int) :
    Consumes cs (Between cs k) (stepBefore p op dest place) fun _ => Between cs k := by
  refine (consumes_parse hp hk _ dest).bind fun left => ?_
  split
  · exact ((tidy_erase _).bind fun _ => tidy_value h _ _ _ _).last stable_between
  · exact (tidy_stepMember h _ op dest _ _ id).last stable_between
  · exact consumes_fail stable_between _ h

theorem consumes_stepAfter (h : place.Marks cs) (left : Operand) (op : Op) (dest : Int) :
    Consumes cs (Between cs k) (stepAfter left op dest place) fun _ => Between cs k := by
  unfold stepAfter
  split
  · exact ((tidy_erase _).bind fun _ => tidy_value h _ _ _ _).last stable_between
  · exact (tidy_stepMember h _ op dest _ _ (· + 1)).last stable_between
  · exact consumes_fail stable_between _ h

theorem consumes_delete (hp : p.Feeding cs) (hk : 2 * k + 1 ≤ p.budget) (h : place.Marks cs)
    (dest : Int) : Consumes cs (Between cs k) (delete p dest place) fun _ => Between cs k := by
  refine (consumes_parse hp hk _ dest).bind fun left => ?_
  split
  · refine Tidy.last (R := fun _ => True) ((tidy_erase _).bind fun _ => ?_) stable_between
    exact (tidy_emitAt h _ _ _ _).bind fun _ => tidy_value h _ _ _ _
  · refine Tidy.last (R := fun _ => True) (Tidy.bind (tidy_modifyChunk fun c hc => ?_) fun _ =>
      tidy_value h _ _ _ _) stable_between
    exact hc.modifyAt _ fun _ _ => h
  · exact Consumes.bind (consumes_fail (Q := fun _ => Between cs k) stable_between _ h) fun _ =>
      (tidy_value h _ _ _ _).last stable_between

/-! ## Choices -/

theorem consumes_ternary (hp : p.Feeding cs) (hk : 2 * k + 1 ≤ p.budget) (h : place.Marks cs)
    (dest : Int) : Consumes cs (Between cs k) (ternary p dest place) fun _ => Between cs k := by
  refine (tidy_emitAt h _ _ _ _).andThen stable_between fun skip _ => ?_
  refine (consumes_parse hp hk _ dest).bind fun _ => (consumes_expect (by nofun)).bind fun _ => ?_
  refine (tidy_emitAt h _ _ _ _).andThen stable_between fun exit _ => ?_
  refine tidy_here.andThen stable_between fun _ _ => (tidy_patch _ _).andThen stable_between
    fun _ _ => ?_
  refine (consumes_parse hp hk _ dest).bind fun _ => Tidy.last (R := fun _ => True) ?_ stable_between
  exact tidy_here.bind fun _ => (tidy_patch _ _).bind fun _ => .pure trivial

theorem consumes_shortCircuit (hp : p.Feeding cs) (hk : 2 * k + 1 ≤ p.budget) (h : place.Marks cs)
    (leave op decided : Op) (power : Nat) (dest : Int) :
    Consumes cs (Between cs k) (shortCircuit p leave op decided power dest place)
      fun _ => Between cs k := by
  refine (tidy_emitAt h _ _ _ _).andThen stable_between fun skip _ => ?_
  refine (consumes_parse hp hk _ _).bind fun _ => Tidy.last (R := fun _ => True) ?_ stable_between
  refine (tidy_emitAt h _ _ _ _).bind fun _ => (tidy_emitAt h _ _ _ _).bind fun exit => ?_
  refine tidy_here.bind fun _ => (tidy_patch _ _).bind fun _ => ?_
  refine (tidy_emitAt h _ _ _ _).bind fun _ => tidy_here.bind fun _ => ?_
  exact (tidy_patch _ _).bind fun _ => .pure trivial

/-! ## Continuations -/

theorem consumes_dotMember (h : place.Marks cs) (dest : Int) :
    Consumes cs (Between cs k) (dotMember dest place) fun _ => Between cs k := by
  refine consumes_read.bind fun t => ?_
  split
  · rename_i s ht
    refine Tidy.andThen (tidy_name s) stable_held fun _ _ => ?_
    refine (tidy_emitAt h _ _ _ _).andThen stable_held fun _ _ => ?_
    refine (tidy_emitAt h _ _ _ _).andThen stable_held fun _ _ => consumes_done ht nofun
  · exact consumes_unwanted _

theorem consumes_indexMember (hp : p.Feeding cs) (hk : 2 * k + 1 ≤ p.budget) (h : place.Marks cs)
    (dest : Int) : Consumes cs (Between cs k) (indexMember p dest place) fun _ => Between cs k := by
  refine (consumes_parse hp hk _ _).bind fun _ => (consumes_expect (by nofun)).bind fun _ => ?_
  exact ((tidy_emitAt h _ _ _ _).bind fun _ => .pure (R := fun _ => True) trivial).last stable_between

theorem consumes_trailing (hp : p.Feeding cs) (hk : 2 * k + 2 ≤ p.budget)
    (h : t.position.Marks cs) (left : Operand) (dest : Int) :
    Consumes cs (Between cs k) (trailing p t left dest) fun _ => Between cs k := by
  have hk' : 2 * k + 1 ≤ p.budget := by omega
  unfold trailing
  dsimp only
  split
  · exact (consumes_parse hp hk' _ _).bind fun _ => (tidy_value h _ _ _ _).last stable_between
  · exact consumes_assign hp hk' h _ _ _
  · split
    · exact consumes_assign hp hk' h _ _ _
    · exact consumes_parse hp hk' _ _
    · exact consumes_ternary hp hk' h _
    · exact consumes_shortCircuit hp hk' h _ _ _ _ _
    · exact consumes_shortCircuit hp hk' h _ _ _ _ _
    · exact consumes_stepAfter h _ _ _
    · exact consumes_stepAfter h _ _ _
    · exact consumes_dotMember h _
    · exact consumes_indexMember hp hk' h _
    · refine (consumes_arguments hp hk _).bind fun _ => ?_
      exact ((tidy_emit _ _ _ _).bind fun _ => .pure (R := fun _ => True) trivial).last stable_between
    · exact consumes_fail stable_between _ h

/-! ## Instances -/

theorem consumes_classPath (hp : p.Feeding cs) (hk : 2 * k + 2 ≤ p.budget) (fuel : Nat)
    (hfuel : k < fuel) (fallback dest : Int) :
    Consumes cs (Between cs k) (classPath p fallback dest fuel) fun _ => Between cs k := by
  induction fuel generalizing k fallback with
  | zero => omega
  | succ fuel ih =>
    refine consumes_read.bind fun t => .ite (fun ht => ?_) fun _ => ?_
    · refine .spend (by rw [ht]; nofun) fun j hj hmarks => ?_
      refine (consumes_trailing hp (by omega) hmarks _ _).bind fun _ => ?_
      exact (ih (by omega) (by omega) _).after fun _ _ _ h => h.mono (by omega)
    · exact consumes_return.bind fun _ => .pure fun _ _ h => h

theorem consumes_newInstance (hp : p.Feeding cs) (hk : 2 * k + 2 ≤ p.budget) (h : place.Marks cs)
    (dest : Int) : Consumes cs (Between cs k) (newInstance p dest place) fun _ => Between cs k := by
  refine consumes_read.bind fun t => ?_
  have hrest : ∀ fallback : Int, Consumes cs (Held cs t k) (do
      let _ ← p.expression t Power.primary dest
      let fallback ← classPath p fallback dest p.budget
      let _ ← emitAt place .newObject dest dest fallback
      let t ← next
      if t.kind = .mark .lParen then
        let behind ← arguments p (dest + 1)
        let _ ← emitAt place .call dest (dest + 1) behind
      else
        pushBack t
        let _ ← emitAt place .call dest (dest + 1) (dest + 1)
      return Operand.temp) fun _ => Between cs k := by
    intro fallback
    refine (consumes_operand hp (by omega) _ dest).bind fun _ => ?_
    refine (consumes_classPath hp hk _ (by omega) _ _).bind fun fallback => ?_
    refine (tidy_emitAt h _ _ _ _).andThen stable_between fun _ _ => consumes_read.bind fun t => ?_
    refine .ite (fun ht => ?_) fun _ => ?_
    · refine .spend (by rw [ht]; nofun) fun j hj _ => ?_
      refine (consumes_arguments hp (by omega) _).bind fun _ => ?_
      exact ((tidy_value h _ _ _ _).last stable_between).after fun _ _ _ h => h.mono (by omega)
    · exact consumes_return.bind fun _ => (tidy_value h _ _ _ _).last stable_between
  split
  · exact (tidy_name _).andThen stable_held fun fallback _ => hrest fallback
  · exact hrest (-1)

end Compile

end ScriptEngine
