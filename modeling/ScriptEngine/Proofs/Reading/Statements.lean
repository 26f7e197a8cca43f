import ScriptEngine.Proofs.Reading.Constructs

/-!
# Functions and statements consume tokens in order

The constructs around expressions, as in `ScriptEngine.Proofs.Reading.Constructs`, and then the whole
grammar: by an induction on its fuel, it consumes tokens in order wherever there are two units of
fuel for each token ahead (`feeding_productions`). A script is followed from the start of its source
to the end (`consumes_script`).
-/

namespace ScriptEngine

namespace Compile

variable {p : Productions} {cs : List Char} {k : Nat} {t : Token} {place : Position}

/-- A statement from a token on that was just read and is given back. It reads that token again, so
less is ahead of what follows. -/
theorem consumes_advance {α : Type} {f : Unit → Compile α} {Q : α → List Act → CompileState → Prop}
    (hp : p.Feeding cs) (hk : 2 * k + 2 ≤ p.budget) (hfinish : t.kind ≠ .finish)
    (hbrace : t.kind ≠ .mark .rBrace) (hf : ∀ j < k, Consumes cs (Between cs j) (f ()) Q) :
    Consumes cs (Held cs t k) (pushBack t >>= fun _ => p.statement >>= f) Q := by
  rcases k with _ | j
  · refine .spend hfinish fun j hj _ => ?_
    cases hj
  · refine consumes_pushBack.bind fun _ => (hp.advance t j hfinish hbrace (by omega)).bind fun _ => ?_
    exact hf j (Nat.lt_succ_self j)

/-! ## Functions -/

theorem tidy_parameterName (h : t.position.Marks cs) (params : List String) :
    Tidy cs (parameterName t params) fun _ => t.kind ≠ .finish := by
  unfold parameterName
  split
  · rename_i s ht
    exact .ite (tidy_fail _ h) (.pure (by rw [ht]; nofun))
  · exact tidy_fail _ h

theorem consumes_parameterDefault (hp : p.Feeding cs) (hk : 2 * k + 2 ≤ p.budget)
    (h : place.Marks cs) (register : Int) (defaults : Bool) :
    Consumes cs (Held cs t k) (parameterDefault p register place t defaults)
      fun r => Held cs r.1 k := by
  refine .ite (fun ht => ?_) fun _ => .ite (fun _ => consumes_fail stable_held _ h) fun _ => ?_
  · refine .spend (by rw [ht]; nofun) fun j hj _ => ?_
    refine (consumes_parse hp (by omega) _ _).bind fun _ => consumes_read.bind fun t => ?_
    exact .pure fun _ _ h => h.mono (by omega)
  · exact (tidy_emitAt h _ _ _ _).andThen stable_held fun _ _ => .pure fun _ _ h => h

theorem consumes_parameters (hp : p.Feeding cs) (hk : 2 * k + 2 ≤ p.budget) (dest : Int) (fuel : Nat)
    (hfuel : k < fuel) (params : List String) (defaults : Bool) :
    Consumes cs (Held cs t k) (parameters p dest fuel t params defaults) fun _ => Between cs k := by
  induction fuel generalizing k t params defaults with
  | zero => omega
  | succ fuel ih =>
    refine .assume (fun _ _ h => h.marks) fun hmarks => ?_
    refine (tidy_parameterName hmarks params).andThen stable_held fun param hname => ?_
    refine .spend hname fun j hj _ => consumes_read.bind fun behind => ?_
    refine (consumes_parameterDefault hp (by omega) hmarks _ _).bind fun r => ?_
    refine .ite (fun hr => ?_) fun _ => .ite (fun hr => ?_) fun _ => consumes_unwanted _
    · refine .spend (by rw [hr]; nofun) fun i hi _ => consumes_read.bind fun t => ?_
      exact (ih (by omega) (by omega) _ _).after fun _ _ _ h => h.mono (by omega)
    · exact (consumes_done hr nofun).after fun _ _ _ h => h.mono (by omega)

theorem consumes_blockBody (hp : p.Feeding cs) (hk : 2 * k + 2 ≤ p.budget) (fuel : Nat)
    (hfuel : k < fuel) : Consumes cs (Between cs k) (blockBody p fuel) fun _ => Between cs k := by
  induction fuel generalizing k with
  | zero => omega
  | succ fuel ih =>
    refine consumes_read.bind fun t => .ite (fun ht => consumes_done ht nofun) fun hbrace =>
      .ite (fun ht => ht ▸ consumes_unwanted _) fun hfinish => ?_
    refine consumes_advance hp hk hfinish hbrace fun j hj => ?_
    exact (ih (by omega) (by omega)).after fun _ _ _ h => h.mono (by omega)

theorem tidy_registerParameters (register : Int) (params : List String) :
    Tidy cs (registerParameters register params) fun _ => True := by
  induction params generalizing register with
  | nil => exact .pure trivial
  | cons s params ih =>
    exact (tidy_name s).bind fun _ => (tidy_emit _ _ _ _).bind fun _ => ih _

theorem consumes_functionBody (hp : p.Feeding cs) (hk : 2 * k + 2 ≤ p.budget) (params : List String) :
    Consumes cs (Between cs k) (functionBody p params) fun _ => Between cs k := by
  refine (tidy_registerParameters _ params).andThen stable_between fun _ _ => ?_
  refine (consumes_expect (by nofun)).bind fun _ => ?_
  refine (consumes_blockBody hp hk _ (by omega)).bind fun _ => ?_
  exact (tidy_emit _ _ _ _).andThen stable_between fun _ _ => .pure fun _ _ h => h

theorem consumes_functionName :
    Consumes cs (Between cs k) functionName fun r => Held cs r.2 k := by
  refine consumes_read.bind fun first => ?_
  split
  · rename_i s ht
    refine .spend (by rw [ht]; nofun) fun j hj _ => consumes_read.bind fun t => ?_
    exact .pure fun _ _ h => h.mono (by omega)
  · exact .pure fun _ _ h => h

theorem consumes_parameterList (hp : p.Feeding cs) (hk : 2 * k + 2 ≤ p.budget) (dest : Int) :
    Consumes cs (Held cs t k) (parameterList p dest t) fun _ => Between cs k := by
  refine .ite (fun ht => ?_) fun _ => consumes_unwanted _
  refine .spend (by rw [ht]; nofun) fun j hj _ => Consumes.after (Q := fun _ => Between cs j)
    (consumes_read.bind fun t => ?_) fun _ _ _ h => h.mono (by omega)
  exact .ite (fun ht => consumes_done ht nofun) fun _ =>
    consumes_parameters hp (by omega) dest _ (by omega) [] false

theorem tidy_functionSlot (named : Option String) : Tidy cs (functionSlot named) fun _ => True := by
  refine .get_bind (fun state => ?_) fun _ _ => rfl
  split
  · exact .ite (.pure trivial) ((tidy_declare _).bind fun _ => .pure trivial)
  · exact .pure trivial

/-- The chunk of a function is marked. -/
theorem consumes_functionChunk (hp : p.Feeding cs) (hk : 2 * k + 2 ≤ p.budget) (named : Option String)
    (params : List String) : Consumes cs (Between cs k) (functionChunk p named params)
      fun c log s => c.Marked cs ∧ Between cs k log s :=
  (tidy_enterFunction named params).andThen stable_between fun _ _ =>
    (consumes_functionBody hp hk params).bind fun _ => tidy_leaveFunction.consumes stable_between

theorem tidy_makeFunction {c : Chunk} (hc : c.Marked cs) (h : place.Marks cs) (dest : Int)
    (count : Nat) : Tidy cs (makeFunction c dest count place) fun _ => True := by
  refine Tidy.bind (tidy_constant fun inner hinner => ?_) fun _ => ?_
  · exact Constant.template.inj hinner ▸ hc
  · exact (tidy_emitAt h _ _ _ _).bind fun _ => (tidy_emitAt h _ _ _ _).bind fun _ =>
      (tidy_emitAt h _ _ _ _).bind fun _ => .pure trivial

/-- Two instructions that write a variable. -/
theorem tidy_pair (h : place.Marks cs) (op op' : Op) (a b c a' b' c' : Int) :
    Tidy cs (do
      let _ ← emitAt place op a b c
      let _ ← emitAt place op' a' b' c') fun _ => True :=
  (tidy_emitAt h _ _ _ _).bind fun _ => (tidy_emitAt h _ _ _ _).bind fun _ => .pure trivial

theorem tidy_bindFunctionName (h : place.Marks cs) (s : String) (slot : Option Int) (dest : Int) :
    Tidy cs (bindFunctionName s slot dest place) fun _ => True := by
  refine (tidy_name s).bind fun k => ?_
  split
  · exact tidy_pair h _ _ _ _ _ _ _ _
  · exact tidy_pair h _ _ _ _ _ _ _ _

theorem consumes_function (hp : p.Feeding cs) (hk : 2 * k + 2 ≤ p.budget) (h : place.Marks cs)
    (power : Nat) (dest : Int) :
    Consumes cs (Between cs k) (function p power dest place) fun _ => Between cs k := by
  refine consumes_functionName.bind fun r => (consumes_parameterList hp hk dest).bind fun params => ?_
  refine (tidy_functionSlot r.1).andThen stable_between fun slot _ => ?_
  refine (consumes_functionChunk hp hk r.1 params).bind fun c => ?_
  refine .assume (fun _ _ h => h.1) fun hc => .before ?_ fun _ _ h => h.2
  refine (tidy_makeFunction hc h dest params.length).andThen stable_between fun _ _ => ?_
  split
  · exact .pure fun _ _ h => h
  · exact (tidy_bindFunctionName h _ _ _).andThen stable_between fun _ _ => .pure fun _ _ h => h

/-! ## Statements -/

theorem consumes_block (hp : p.Feeding cs) (hk : 2 * k + 2 ≤ p.budget) :
    Consumes cs (Between cs k) (block p) fun _ => Between cs k := by
  refine tidy_openBlock.andThen stable_between fun _ _ => ?_
  refine (consumes_blockBody hp hk _ (by omega)).bind fun _ => ?_
  exact tidy_closeBlock.andThen stable_between fun _ _ => .pure fun _ _ h => h

theorem consumes_condition (hp : p.Feeding cs) (hk : 2 * k + 1 ≤ p.budget) (dest : Int) :
    Consumes cs (Between cs k) (condition p dest) fun _ => Between cs k :=
  (consumes_expect (by nofun)).bind fun _ => (consumes_parse hp hk _ dest).bind fun _ =>
    consumes_expect (by nofun)

theorem consumes_ifStatement (hp : p.Feeding cs) (hk : 2 * k + 2 ≤ p.budget) (dest : Int) :
    Consumes cs (Between cs k) (ifStatement p dest) fun _ => Between cs k := by
  refine (consumes_condition hp (by omega) dest).bind fun _ => ?_
  refine (tidy_emit _ _ _ _).andThen stable_between fun skip _ => ?_
  refine (hp.statement k hk).bind fun _ => consumes_read.bind fun t => .ite (fun ht => ?_) fun _ => ?_
  · refine .spend (by rw [ht]; nofun) fun j hj _ => Consumes.after (Q := fun _ => Between cs j) ?_
      fun _ _ _ h => h.mono (by omega)
    refine (tidy_emit _ _ _ _).andThen stable_between fun exit _ => ?_
    refine tidy_here.andThen stable_between fun _ _ => (tidy_patch _ _).andThen stable_between
      fun _ _ => (hp.statement j (by omega)).bind fun _ => Tidy.last (R := fun _ => True) ?_
      stable_between
    exact tidy_here.bind fun _ => (tidy_patch _ _).bind fun _ => .pure trivial
  · refine consumes_return.bind fun _ => Tidy.last (R := fun _ => True) ?_ stable_between
    exact tidy_here.bind fun _ => (tidy_patch _ _).bind fun _ => .pure trivial

theorem consumes_whileStatement (hp : p.Feeding cs) (hk : 2 * k + 2 ≤ p.budget) (dest : Int) :
    Consumes cs (Between cs k) (whileStatement p dest) fun _ => Between cs k := by
  refine tidy_here.andThen stable_between fun top _ => ?_
  refine (consumes_condition hp (by omega) dest).bind fun _ => ?_
  refine (tidy_emit _ _ _ _).andThen stable_between fun exit _ => ?_
  refine tidy_openLoop.andThen stable_between fun _ _ => (hp.statement k hk).bind fun _ => ?_
  refine Tidy.last (R := fun _ => True) ?_ stable_between
  refine (tidy_emit _ _ _ _).bind fun _ => tidy_here.bind fun behind => ?_
  exact (tidy_patch _ _).bind fun _ => (tidy_closeLoop _ _).bind fun _ => .pure trivial

theorem consumes_doStatement (hp : p.Feeding cs) (hk : 2 * k + 2 ≤ p.budget) (dest : Int) :
    Consumes cs (Between cs k) (doStatement p dest) fun _ => Between cs k := by
  refine tidy_here.andThen stable_between fun top _ => ?_
  refine tidy_openLoop.andThen stable_between fun _ _ => (hp.statement k hk).bind fun _ => ?_
  refine (consumes_expect (by nofun)).bind fun _ => tidy_here.andThen stable_between fun check _ => ?_
  refine (consumes_condition hp (by omega) dest).bind fun _ => ?_
  refine Tidy.last (R := fun _ => True) ?_ stable_between
  refine (tidy_emit _ _ _ _).bind fun _ => tidy_here.bind fun _ => ?_
  exact (tidy_closeLoop _ _).bind fun _ => .pure trivial

theorem tidy_variableName (h : t.position.Marks cs) :
    Tidy cs (variableName t) fun _ => t.kind ≠ .finish := by
  unfold variableName
  split
  · rename_i s ht
    exact .pure (by rw [ht]; nofun)
  · exact tidy_fail _ h

theorem tidy_declareVariable (h : place.Marks cs) (s : String) (k : Int) :
    Tidy cs (declareVariable s k place) fun _ => True := by
  refine .get_bind (fun state => ?_) fun _ _ => rfl
  refine .ite (.pure trivial) ((tidy_declare s).bind fun _ => ?_)
  exact (tidy_emitAt h _ _ _ _).bind fun _ => .pure trivial

theorem tidy_storeVariable (h : place.Marks cs) (slot : Option Int) (k dest : Int) :
    Tidy cs (storeVariable slot k dest place) fun _ => True := by
  unfold storeVariable
  split
  · exact (tidy_emitAt h _ _ _ _).bind fun _ => .pure trivial
  · exact tidy_pair h _ _ _ _ _ _ _ _

theorem tidy_clearVariable (h : place.Marks cs) (slot : Option Int) (k dest : Int) :
    Tidy cs (clearVariable slot k dest place) fun _ => True := by
  unfold clearVariable
  split
  · exact (tidy_emitAt h _ _ _ _).bind fun _ => .pure trivial
  · exact tidy_pair h _ _ _ _ _ _ _ _

theorem consumes_initialise (hp : p.Feeding cs) (hk : 2 * k + 2 ≤ p.budget) (h : place.Marks cs)
    (slot : Option Int) (name dest : Int) :
    Consumes cs (Held cs t k) (initialise p slot name dest place t) fun t => Held cs t k := by
  refine .ite (fun ht => ?_) fun _ => ?_
  · refine .spend (by rw [ht]; nofun) fun j hj _ => ?_
    refine (consumes_parse hp (by omega) _ _).bind fun _ => ?_
    refine (tidy_storeVariable h _ _ _).andThen stable_between fun _ _ => ?_
    exact consumes_read.after fun _ _ _ h => h.mono (by omega)
  · exact (tidy_clearVariable h _ _ _).andThen stable_held fun _ _ => .pure fun _ _ h => h

theorem consumes_declarations (hp : p.Feeding cs) (hk : 2 * k + 2 ≤ p.budget) (dest : Int)
    (fuel : Nat) (hfuel : k < fuel) :
    Consumes cs (Between cs k) (declarations p dest fuel) fun _ => Between cs k := by
  induction fuel generalizing k with
  | zero => omega
  | succ fuel ih =>
    refine consumes_read.bind fun t => .assume (fun _ _ h => h.marks) fun hmarks => ?_
    refine (tidy_variableName hmarks).andThen stable_held fun s hname => .spend hname fun j hj _ => ?_
    refine (tidy_name s).andThen stable_between fun name _ => ?_
    refine (tidy_declareVariable hmarks s name).andThen stable_between fun slot _ => ?_
    refine consumes_read.bind fun u => (consumes_initialise hp (by omega) hmarks slot name dest).bind
      fun u => .ite (fun hu => ?_) fun _ => .ite (fun _ => ?_) fun _ => consumes_unwanted _
    · refine .spend (by rw [hu]; nofun) fun i hi _ => ?_
      exact (ih (by omega) (by omega)).after fun _ _ _ h => h.mono (by omega)
    · exact consumes_return.bind fun _ => .pure fun _ _ h => h.mono (by omega)

/-- A part of a loop that is an expression, up to the sign behind it. -/
theorem consumes_clause (hp : p.Feeding cs) (hk : 2 * k + 1 ≤ p.budget) (dest : Int)
    (sign : Mark) : Consumes cs (Held cs t k) (do
      let _ ← p.expression t Power.expression dest
      expect (.mark sign)) fun _ => Between cs k :=
  (consumes_operand hp hk _ dest).bind fun _ => consumes_expect (by nofun)

theorem consumes_forStart (hp : p.Feeding cs) (hk : 2 * k + 2 ≤ p.budget) (dest : Int) :
    Consumes cs (Between cs k) (forStart p dest) fun _ => Between cs k := by
  refine consumes_read.bind fun t => .ite (fun ht => ?_) fun _ =>
    .ite (fun ht => consumes_done ht nofun) fun _ => consumes_clause hp (by omega) dest .semicolon
  refine .spend (by rw [ht]; nofun) fun j hj _ => ?_
  refine (consumes_declarations hp (by omega) dest _ (by omega)).bind fun _ => ?_
  exact (consumes_expect (by nofun)).after fun _ _ _ h => h.mono (by omega)

theorem consumes_forTest (hp : p.Feeding cs) (hk : 2 * k + 1 ≤ p.budget) (dest : Int) :
    Consumes cs (Between cs k) (forTest p dest) fun _ => Between cs k := by
  refine consumes_read.bind fun t => .ite (fun ht => consumes_done ht nofun) fun _ => ?_
  refine (consumes_operand hp hk _ dest).bind fun _ => (consumes_expect (by nofun)).bind fun _ => ?_
  exact ((tidy_emit _ _ _ _).bind fun _ => .pure (R := fun _ => True) trivial).last stable_between

theorem consumes_forStep (hp : p.Feeding cs) (hk : 2 * k + 1 ≤ p.budget) (dest : Int) :
    Consumes cs (Between cs k) (forStep p dest) fun _ => Between cs k :=
  consumes_read.bind fun _ => .ite (fun ht => consumes_done ht nofun) fun _ =>
    consumes_clause hp hk dest .rParen

theorem tidy_patchExit (exit : Option Nat) (target : Nat) :
    Tidy cs (patchExit exit target) fun _ => True := by
  unfold patchExit
  split
  · exact tidy_patch _ _
  · exact .pure trivial

theorem consumes_forStatement (hp : p.Feeding cs) (hk : 2 * k + 2 ≤ p.budget) (dest : Int) :
    Consumes cs (Between cs k) (forStatement p dest) fun _ => Between cs k := by
  refine (consumes_expect (by nofun)).bind fun _ => tidy_openBlock.andThen stable_between
    fun _ _ => (consumes_forStart hp hk dest).bind fun _ => ?_
  refine tidy_here.andThen stable_between fun top _ => ?_
  refine (consumes_forTest hp (by omega) dest).bind fun exit => ?_
  refine (tidy_emit _ _ _ _).andThen stable_between fun toBody _ => ?_
  refine tidy_here.andThen stable_between fun step _ => ?_
  refine (consumes_forStep hp (by omega) dest).bind fun _ => ?_
  refine (tidy_emit _ _ _ _).andThen stable_between fun _ _ => ?_
  refine tidy_here.andThen stable_between fun _ _ => (tidy_patch _ _).andThen stable_between
    fun _ _ => tidy_openLoop.andThen stable_between fun _ _ => (hp.statement k hk).bind fun _ => ?_
  refine Tidy.last (R := fun _ => True) ?_ stable_between
  refine (tidy_emit _ _ _ _).bind fun _ => tidy_here.bind fun behind => ?_
  refine (tidy_patchExit _ _).bind fun _ => (tidy_closeLoop _ _).bind fun _ => ?_
  exact tidy_closeBlock.bind fun _ => .pure trivial

theorem consumes_returnStatement (hp : p.Feeding cs) (hk : 2 * k + 1 ≤ p.budget)
    (h : place.Marks cs) (dest : Int) :
    Consumes cs (Between cs k) (returnStatement p dest place) fun _ => Between cs k := by
  refine consumes_atTerminator.bind fun _ => .ite (fun _ => ?_) fun _ => ?_
  · exact (tidy_value h _ _ _ _).last stable_between
  · exact (consumes_parse hp hk _ dest).bind fun _ => (tidy_value h _ _ _ _).last stable_between

theorem tidy_leaveLoop (h : place.Marks cs) (word : Keyword) :
    Tidy cs (leaveLoop word place) fun _ => True := by
  refine .get_bind (fun state => ?_) fun _ _ => rfl
  split
  · exact tidy_fail _ h
  · refine (tidy_emitAt h _ _ _ _).bind fun _ => ?_
    exact (tidy_modifyCurrent (by exact fun _ hf => hf)).bind fun _ => .pure trivial

/-! ## Productions -/

theorem consumes_leading (hp : p.Feeding cs) (hk : 2 * k + 2 ≤ p.budget)
    (h : t.position.Marks cs) (power : Nat) (dest : Int) :
    Consumes cs (Between cs k) (leading p t power dest) fun _ => Between cs k := by
  have hk' : 2 * k + 1 ≤ p.budget := by omega
  have hplain : ∀ (op : Op) (a b c : Int), Consumes cs (Between cs k)
      (emitAt t.position op a b c >>= fun _ => pure Operand.temp) fun _ => Between cs k :=
    fun op a b c => (tidy_value h op a b c).last stable_between
  refine .ite (fun _ => consumes_fail stable_between _ h) fun _ => ?_
  split
  · exact (tidy_loadConstant h _ _).last stable_between
  · exact (tidy_loadConstant h _ _).last stable_between
  · exact (tidy_loadName h _ _).last stable_between
  · exact consumes_fail stable_between _ h
  · split
    · exact consumes_paren hp hk dest
    · exact consumes_arrayLiteral hp hk h dest
    · exact consumes_dictLiteral hp hk h dest
    · exact consumes_block hp hk
    all_goals first
      | exact consumes_unary hp hk' h _ _ _
      | exact consumes_stepBefore hp hk' h _ _
      | exact consumes_fail stable_between _ h
  · split
    all_goals first
      | exact hplain _ _ _ _
      | exact consumes_unary hp hk' h _ _ _
      | exact consumes_fail stable_between _ h
      | exact consumes_function hp hk h power dest
      | exact consumes_newInstance hp hk h dest
      | exact consumes_delete hp hk' h dest
      | exact consumes_ifStatement hp hk dest
      | exact consumes_whileStatement hp hk dest
      | exact consumes_doStatement hp hk dest
      | exact consumes_forStatement hp hk dest
      | exact consumes_declarations hp hk dest _ (by omega)
      | exact consumes_returnStatement hp hk' h dest
      | exact (tidy_leaveLoop h _).last stable_between

/-- No expression starts with the end. -/
theorem tidy_leading_finish (ht : t.kind = .finish) (h : t.position.Marks cs) (power : Nat)
    (dest : Int) : Tidy cs (leading p t power dest) fun _ => False := by
  unfold leading
  rw [ht]
  exact tidy_fail _ h

theorem consumes_climb (hp : p.Feeding cs) (hk : 2 * k + 2 ≤ p.budget) (power : Nat) (dest : Int)
    (fuel : Nat) (hfuel : k < fuel) (left : Operand) :
    Consumes cs (Between cs k) (climb p power dest fuel left) fun _ => Between cs k := by
  induction fuel generalizing k left with
  | zero => omega
  | succ fuel ih =>
    refine consumes_read.bind fun t => .ite (fun _ => ?_) fun hpower => ?_
    · exact consumes_return.bind fun _ => .pure fun _ _ h => h
    · have hfinish : t.kind ≠ .finish := fun ht => hpower (by rw [ht]; exact Nat.zero_le power)
      refine .spend hfinish fun j hj hmarks => ?_
      refine (consumes_trailing hp (by omega) hmarks left dest).bind fun left => ?_
      exact (ih (by omega) (by omega) left).after fun _ _ _ h => h.mono (by omega)

theorem consumes_expression (hp : p.Feeding cs) (hk : 2 * k + 2 ≤ p.budget)
    (h : t.position.Marks cs) (power : Nat) (dest : Int) :
    Consumes cs (Between cs k) (expression p t power dest) fun _ => Between cs k :=
  (consumes_leading hp hk h power dest).bind fun left => .ite (fun _ => .pure fun _ _ h => h)
    fun _ => consumes_climb hp hk power dest _ (by omega) left

/-- What stands behind the expression of a statement. -/
theorem consumes_statementEnd : Consumes cs (Between cs k) (do
      let t ← next
      if t.kind = .mark .semicolon then return ()
      else if isTerminator t.kind then pushBack t
      else fail (.expected (.sign .semicolon) t.kind) t.position) fun _ => Between cs k :=
  consumes_read.bind fun _ => .ite (fun ht => consumes_done ht nofun) fun _ =>
    .ite (fun _ => consumes_return) fun _ => consumes_unwanted _

theorem consumes_statement (hp : p.Feeding cs) (hk : 2 * k + 1 ≤ p.budget) :
    Consumes cs (Between cs k) (statement p) fun _ => Between cs k := by
  refine consumes_read.bind fun t => .ite (fun ht => consumes_done ht nofun) fun _ =>
    .ite (fun _ => consumes_return) fun _ => ?_
  refine (consumes_operand hp hk _ _).bind fun left => ?_
  exact .ite (fun _ => .pure fun _ _ h => h) fun _ => consumes_statementEnd

/-- A statement that does not start with a token that ends it reads that token. -/
theorem consumes_statement_advance (hp : p.Feeding cs) (hk : 2 * k + 3 ≤ p.budget)
    (hfinish : t.kind ≠ .finish) (hbrace : t.kind ≠ .mark .rBrace) :
    Consumes cs (Given cs t (k + 1)) (statement p) fun _ => Between cs k := by
  refine consumes_reread.bind fun u => .assume (fun _ _ h => h.1) fun hu => ?_
  subst hu
  refine .before (P := Held cs u (k + 1)) ?_ fun _ _ h => h.2
  refine .spend hfinish fun j hj hmarks => ?_
  obtain rfl : k = j := Nat.succ.inj hj
  refine .ite (fun _ => .pure fun _ _ h => h) fun hsemicolon => .ite (fun hend => ?_) fun _ => ?_
  · simp [isTerminator, hfinish, hbrace, hsemicolon] at hend
  · refine (hp.expression u _ _ k hfinish hmarks hk).bind fun left => ?_
    exact .ite (fun _ => .pure fun _ _ h => h) fun _ => consumes_statementEnd

/-- The whole grammar consumes tokens in order, if there is fuel for the tokens ahead. -/
theorem feeding_productions (cs : List Char) (fuel : Nat) : (productions fuel).Feeding cs := by
  induction fuel with
  | zero =>
    have hbudget : (productions 0).budget = 0 := rfl
    exact ⟨fun _ _ _ _ _ _ _ => by omega, fun _ _ _ _ _ _ => by omega, fun _ _ => by omega,
      fun _ _ _ _ _ => by omega⟩
  | succ fuel ih =>
    refine ⟨fun first power dest k _ hmarks hk => ?_, fun first power dest k hfirst _ => ?_,
      fun k hk => ?_, fun t k hfinish hbrace hk => ?_⟩
    · exact consumes_expression ih (Nat.le_of_succ_le_succ hk) hmarks power dest
    · refine .assume (fun _ _ h => h.marks) fun hmarks => ?_
      exact (tidy_leading_finish hfirst hmarks power dest).andThen stable_held fun _ h => h.elim
    · exact consumes_statement ih (Nat.le_of_succ_le_succ hk)
    · exact consumes_statement_advance ih (Nat.le_of_succ_le_succ hk) hfinish hbrace

/-! ## Scripts -/

/-- The end of the source was read. -/
def Finished (cs : List Char) (log : List Act) (s : CompileState) : Prop :=
  ∃ t k, t.kind = .finish ∧ Held cs t k log s

theorem stable_finished : Stable cs (Finished cs) where
  consumed := fun ⟨_, _, _, h⟩ => stable_held.consumed h
  marked := fun ⟨_, _, _, h⟩ => h.marked
  congr := fun ⟨t, k, ht, h⟩ hlexer hmarked => ⟨t, k, ht, stable_held.congr h hlexer hmarked⟩

theorem consumes_scriptBody (hp : p.Feeding cs) (hk : 2 * k + 2 ≤ p.budget) (fuel : Nat)
    (hfuel : k < fuel) : Consumes cs (Ready cs k) (scriptBody p fuel) fun _ => Finished cs := by
  induction fuel generalizing k with
  | zero => omega
  | succ fuel ih =>
    refine consumes_next.bind fun t => .ite (fun ht => .pure fun _ _ h => ⟨t, k, ht, h⟩)
      fun hfinish => .ite (fun _ => consumes_unwanted _) fun hbrace => ?_
    refine consumes_advance hp hk hfinish hbrace fun j hj => ?_
    exact (ih (by omega) (by omega)).before fun _ _ h => h.toReady

/-- A script is read to the end, and its chunk is marked. -/
theorem consumes_script (hp : p.Feeding cs) (hk : 2 * k + 2 ≤ p.budget) :
    Consumes cs (Ready cs k) (script p) fun c log s => c.Marked cs ∧ Finished cs log s := by
  refine (consumes_scriptBody hp hk _ (by omega)).bind fun _ => ?_
  refine (tidy_emit _ _ _ _).andThen stable_finished fun _ _ => ?_
  refine Tidy.consumes (.of_ok fun s => ?_) stable_finished
  exact ⟨s.current.chunk, s, rfl, fun _ => rfl, fun hs => ⟨hs, hs.current⟩⟩

end Compile

end ScriptEngine
