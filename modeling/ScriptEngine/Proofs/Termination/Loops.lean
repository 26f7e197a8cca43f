import ScriptEngine.Proofs.Termination.Ahead

/-!
# The loops of the grammar, turn by turn

A `Loop` is one of the recursions by which the grammar reads lists of things, taken apart into its
turns: a turn ends with the result of the loop, or with the state that the next turn starts from.
There are nine of them (`Loop.InGrammar`).

A loop advances if every turn that is not the last one leaves fewer tokens ahead
(`Loop.Advances`). By induction on the turns that it may take, it then needs no more of them than
there are tokens ahead, and one (`Loop.Advances.run`).
-/

namespace ScriptEngine

namespace Compile

/-- A loop of the grammar, taken apart into its turns. -/
structure Loop where
  /-- What a turn starts from. -/
  State : Type
  Result : Type
  /-- The loop, with a bound on the number of its turns. -/
  run : Productions → State → (turns : Nat) → Compile Result
  /-- One turn, which ends with the result or with what the next turn starts from. -/
  turn : Productions → State → Compile (Result ⊕ State)
  /-- How many tokens were read, but not worked off, where a turn starts. -/
  inHand : State → Nat
  run_succ : ∀ p a n, run p a (n + 1) = turn p a >>= Sum.elim pure (run p · n)

theorem ite_bind {α β : Type} {c : Prop} [Decidable c] (x y : Compile α) (f : α → Compile β) :
    (if c then x else y) >>= f = if c then x >>= f else y >>= f := by
  split <;> rfl

theorem fail_bind {α β : Type} (cause : GrammarFault) (place : Position) (f : α → Compile β) :
    fail cause place >>= f = fail cause place :=
  rfl

namespace Loop

/-- Arguments up to the closing parenthesis. -/
def arguments : Loop where
  State := Int
  Result := Int
  run := argumentsFrom
  turn p register := do
    let _ ← parse p Power.comma register
    let t ← next
    if t.kind = .mark .comma then return .inr (register + 1)
    else if t.kind = .mark .rParen then return .inl (register + 1)
    else fail (.expected (.commaOr .rParen) t.kind) t.position
  inHand _ := 0
  run_succ p register n := by
    simp only [argumentsFrom, bind_assoc, ite_bind, pure_bind, fail_bind, Sum.elim_inl, Sum.elim_inr]

/-- Items of an array up to the closing bracket. -/
def array : Loop where
  State := Int
  Result := Int
  run := arrayItems
  turn p register := do
    let t ← next
    if t.kind = .mark .rBracket then return .inl register
    else if t.kind = .mark .comma then
      let _ ← emit .loadVoid register
      return .inr (register + 1)
    else
      let _ ← p.expression t Power.comma register
      let t ← next
      if t.kind = .mark .comma then return .inr (register + 1)
      else if t.kind = .mark .rBracket then return .inl (register + 1)
      else fail (.expected (.commaOr .rBracket) t.kind) t.position
  inHand _ := 0
  run_succ p register n := by
    simp only [arrayItems, bind_assoc, ite_bind, pure_bind, fail_bind, Sum.elim_inl, Sum.elim_inr]

/-- Entries of a dictionary up to the closing bracket. -/
def dictionary : Loop where
  State := Int
  Result := Int
  run := dictEntries
  turn p register := do
    let t ← next
    if t.kind = .mark .rBracket then return .inl register
    else
      dictKey p t register
      let _ ← parse p Power.comma (register + 1)
      let t ← next
      if t.kind = .mark .comma then return .inr (register + 2)
      else if t.kind = .mark .rBracket then return .inl (register + 2)
      else fail (.expected (.commaOr .rBracket) t.kind) t.position
  inHand _ := 0
  run_succ p register n := by
    simp only [dictEntries, bind_assoc, ite_bind, pure_bind, fail_bind, Sum.elim_inl, Sum.elim_inr]

/-- Dots and names behind the class name of an instance. -/
def classPath (dest : Int) : Loop where
  State := Int
  Result := Int
  run p fallback := Compile.classPath p fallback dest
  turn p fallback := do
    let t ← next
    if t.kind = .mark .dot then
      let _ ← trailing p t .temp dest
      return .inr (-1)
    else
      pushBack t
      return .inl fallback
  inHand _ := 0
  run_succ p fallback n := by
    simp only [Compile.classPath, bind_assoc, ite_bind, pure_bind, Sum.elim_inl, Sum.elim_inr]

/-- Parameters up to the closing parenthesis. The first token of one is in hand. -/
def parameters (dest : Int) : Loop where
  State := Token × List String × Bool
  Result := List String
  run p a n := Compile.parameters p dest n a.1 a.2.1 a.2.2
  turn p := fun (t, params, defaults) => do
    let param ← parameterName t params
    let behind ← next
    let (behind, defaults) ←
      parameterDefault p (dest + 1 + params.length) t.position behind defaults
    if behind.kind = .mark .comma then
      return .inr (← next, params ++ [param], defaults)
    else if behind.kind = .mark .rParen then return .inl (params ++ [param])
    else fail (.expected (.commaOr .rParen) behind.kind) behind.position
  inHand a := weight a.1
  run_succ p a n := by
    simp only [Compile.parameters, bind_assoc, ite_bind, pure_bind, fail_bind, Sum.elim_inl,
      Sum.elim_inr]

/-- Statements up to the closing brace. -/
def block : Loop where
  State := Unit
  Result := Unit
  run p _ := blockBody p
  turn p _ := do
    let t ← next
    if t.kind = .mark .rBrace then return .inl ()
    else if t.kind = .finish then fail (.expected (.sign .rBrace) .finish) t.position
    else
      pushBack t
      p.statement
      return .inr ()
  inHand _ := 0
  run_succ p _ n := by
    simp only [blockBody, bind_assoc, ite_bind, pure_bind, fail_bind, Sum.elim_inl, Sum.elim_inr]

/-- Declarations of variables up to a token that ends the statement. -/
def declarations (dest : Int) : Loop where
  State := Unit
  Result := Operand
  run p _ := Compile.declarations p dest
  turn p _ := do
    let t ← next
    let s ← variableName t
    let k ← name s
    let slot ← declareVariable s k t.position
    let t ← initialise p slot k dest t.position (← next)
    if t.kind = .mark .comma then return .inr ()
    else if isTerminator t.kind then
      pushBack t
      return .inl .temp
    else fail (.expected (.sign .semicolon) t.kind) t.position
  inHand _ := 0
  run_succ p _ n := by
    simp only [Compile.declarations, bind_assoc, ite_bind, pure_bind, fail_bind, Sum.elim_inl,
      Sum.elim_inr]

/-- What continues an expression. -/
def climb (power : Nat) (dest : Int) : Loop where
  State := Operand
  Result := Operand
  run p left n := Compile.climb p power dest n left
  turn p left := do
    let t ← next
    if t.kind.leftPower ≤ power then
      pushBack t
      return .inl left
    else return .inr (← trailing p t left dest)
  inHand _ := 0
  run_succ p left n := by
    simp only [Compile.climb, bind_assoc, ite_bind, pure_bind, Sum.elim_inl, Sum.elim_inr]

/-- Statements up to the end of the source. -/
def script : Loop where
  State := Unit
  Result := Unit
  run p _ := scriptBody p
  turn p _ := do
    let t ← next
    if t.kind = .finish then return .inl ()
    else if t.kind = .mark .rBrace then fail (.unexpected t.kind) t.position
    else
      pushBack t
      p.statement
      return .inr ()
  inHand _ := 0
  run_succ p _ n := by
    simp only [scriptBody, bind_assoc, ite_bind, pure_bind, fail_bind, Sum.elim_inl, Sum.elim_inr]

/-- The loops of the grammar. -/
inductive InGrammar : Loop → Prop where
  | arguments : InGrammar arguments
  | array : InGrammar array
  | dictionary : InGrammar dictionary
  | classPath (dest : Int) : InGrammar (classPath dest)
  | parameters (dest : Int) : InGrammar (parameters dest)
  | block : InGrammar block
  | declarations (dest : Int) : InGrammar (declarations dest)
  | climb (power : Nat) (dest : Int) : InGrammar (climb power dest)
  | script : InGrammar script

/-- What the end of a turn has in hand, with a token to spare if there is another turn. -/
def spare (L : Loop) : L.Result ⊕ L.State → Nat :=
  Sum.elim (fun _ => 0) fun a => L.inHand a + 1

/-- A turn is paced, and there is a token to spare if it is not the last one. -/
def Advances (L : Loop) (p q : Productions) (w : Nat) : Prop :=
  ∀ (a : L.State) {i k : Nat}, i + L.inHand a ≤ k → 2 * k + 1 < w →
    Paced i k L.spare (L.turn p a) (L.turn q a)

/-- A loop that advances is paced, if it may take more turns than there are tokens ahead. -/
theorem Advances.run {L : Loop} {p q : Productions} {w i k m n : Nat} (h : L.Advances p q w)
    (a : L.State) (hle : i + L.inHand a ≤ k) (hk : 2 * k + 1 < w) (hm : k < m) (hn : k < n) :
    Paced i k (fun _ => 0) (L.run p a m) (L.run q a n) := by
  induction m generalizing i k n a with
  | zero => omega
  | succ m ih =>
    obtain ⟨n, rfl⟩ := Nat.exists_eq_succ_of_ne_zero (Nat.ne_of_gt (Nat.zero_lt_of_lt hn))
    rw [L.run_succ, L.run_succ]
    refine (h a hle hk).bind fun r j hj => ?_
    rcases r with r | a
    · exact .pure hj
    · -- The token to spare pays for the turn.
      have hspare : j + L.inHand a + 1 ≤ k := hj
      refine (ih a (Nat.le_refl _) ?_ ?_ ?_).le (Nat.le_of_succ_le hspare)
      all_goals omega

end Loop

end Compile

end ScriptEngine
