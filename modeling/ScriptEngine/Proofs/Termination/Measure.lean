import ScriptEngine.Compile
import ScriptEngine.Proofs.Termination.Statements

/-!
# Compilation comes to an end

The measure of a call counts each token ahead twice, and it is greater by one for a statement and by
two for a script (`Call.measure`). `Productions.below` is a grammar that refuses every call whose
measure is not below a bound, as if its fuel were used up.

Main statement (`compilation_terminates`), for all states of a compilation, whatever is in the slot
of the lexer:

* the body of a call goes on to calls of a smaller measure only: it does not notice if all others are
  refused;
* a turn of a loop that is not the last one leaves fewer tokens ahead, so that a loop takes at most
  one more turn than there are tokens;
* neither depends on fuel, if there is as much of it as the measure says;
* so the chunk of a source, or its error, does not depend on fuel, either.
-/

namespace ScriptEngine

namespace Compile

/-- A call of the grammar: of the script, or of an entry point. -/
inductive Call : Type → Type where
  | script : Call Chunk
  | statement : Call Unit
  | expression (first : Token) (power : Nat) (dest : Int) : Call Operand

namespace Call

/-- The measure of a call in a state. The first token of an expression was read, but not worked
off. -/
def measure {α : Type} (s : CompileState) : Call α → Nat
  | script => 2 * s.lexer.ahead + 2
  | statement => 2 * s.lexer.ahead + 1
  | expression first _ _ => 2 * (s.lexer.ahead + weight first)

/-- What a call does, up to the calls of the grammar that it goes on to. -/
def body {α : Type} (p : Productions) : Call α → Compile α
  | script => Compile.script p
  | statement => Compile.statement p
  | expression first power dest => Compile.expression p first power dest

end Call

/-- A step that does not run out of fuel. -/
def Answers {α : Type} (x : Compile α) (s : CompileState) : Prop :=
  ∀ s', x s ≠ .error .exhausted s'

end Compile

open Compile

/-- A grammar that refuses calls whose measures are not below `w`. -/
def Productions.below (p : Productions) (w : Nat) : Productions where
  budget := w / 2
  expression first power dest := fun s =>
    if (Call.expression first power dest).measure s < w then p.expression first power dest s
    else .error .exhausted s
  statement := fun s =>
    if Call.statement.measure s < w then p.statement s else .error .exhausted s

namespace Compile

variable {α : Type} {p q : Productions} {w i k n : Nat}

theorem Paced.answers {m : α → Nat} {x y : Compile α} {s : CompileState} (h : Paced i k m x y)
    (hs : s.lexer.ahead ≤ i) : Answers x s := by
  intro s' hx
  have hend := (h s hs).2
  rw [hx] at hend
  exact hend rfl

/-- The calls that are refused are those that agreement says nothing about. -/
theorem agrees_below (h : p.Agrees q w) : (p.below w).Agrees q w := by
  refine ⟨⟨?_, h.budgets.2⟩, fun first power dest k hk s hs => ?_, fun hk s hs => ?_,
    fun {t} k hfinish hbrace hk s hs => ?_⟩
  · change w ≤ 2 * (w / 2) + 1
    omega
  · have hmeasure : (Call.expression first power dest).measure s < w := by
      change 2 * (s.lexer.ahead + weight first) < w
      omega
    simp only [Productions.below, if_pos hmeasure]
    exact h.expression first power dest hk s hs
  · have hmeasure : Call.statement.measure s < w := by
      change 2 * s.lexer.ahead + 1 < w
      omega
    simp only [Productions.below, if_pos hmeasure]
    exact h.statement hk s hs
  · have hadvance := h.advance hfinish hbrace hk s hs
    have hle := Lexer.ahead_pushBack_le s.lexer t
    have hmeasure : Call.statement.measure { s with lexer := s.lexer.pushBack t } < w := by
      change 2 * (s.lexer.pushBack t).ahead + 1 < w
      rw [weight, if_neg hfinish] at hle
      omega
    have hbelow : (pushBack t >>= fun _ => (p.below w).statement) s =
        (pushBack t >>= fun _ => p.statement) s :=
      if_pos hmeasure
    rw [hbelow]
    exact hadvance

theorem paced_call (h : p.Agrees q w) (s : CompileState) (call : Call α) (hw : call.measure s ≤ w) :
    Paced s.lexer.ahead s.lexer.ahead (fun _ => 0) (call.body p) (call.body q) := by
  cases call with
  | script => exact paced_script h hw
  | statement => exact paced_statement h hw
  | expression first power dest => exact paced_expression h hw power dest

theorem Loop.InGrammar.advances {L : Loop} (hL : L.InGrammar) (h : p.Agrees q w) :
    L.Advances p q w := by
  cases hL with
  | arguments => exact advances_arguments h
  | array => exact advances_array h
  | dictionary => exact advances_dictionary h
  | classPath dest => exact advances_classPath h dest
  | parameters dest => exact advances_parameters h dest
  | block => exact advances_block h
  | declarations dest => exact advances_declarations h dest
  | climb power dest => exact advances_climb h power dest
  | script => exact advances_script h

/-- A call goes on to smaller calls only, and does not depend on fuel beyond its measure. -/
theorem call_terminates (call : Call α) (s : CompileState) {fuel : Nat}
    (hfuel : call.measure s ≤ fuel) :
    Answers (call.body (productions fuel)) s ∧
      call.body ((productions fuel).below (call.measure s)) s = call.body (productions fuel) s ∧
      ∀ more, call.measure s ≤ more →
        call.body (productions more) s = call.body (productions fuel) s := by
  have hpaced {q : Productions} (h : q.Agrees (productions fuel) (call.measure s)) :=
    paced_call h s call (Nat.le_refl _)
  have hself := agrees_productions (call.measure s) hfuel hfuel
  refine ⟨(hpaced hself).answers (Nat.le_refl _), ?_, fun more hmore => ?_⟩
  · exact (hpaced (agrees_below hself) s (Nat.le_refl _)).1
  · exact (hpaced (agrees_productions _ hmore hfuel) s (Nat.le_refl _)).1

/-- A loop makes progress turn by turn, and takes no more turns than there are tokens ahead, and
one. -/
theorem loop_terminates {L : Loop} (hL : L.InGrammar) (a : L.State) (s : CompileState) {fuel : Nat}
    (hfuel : 2 * (s.lexer.ahead + L.inHand a) + 2 ≤ fuel) :
    let p := productions fuel
    Answers (L.turn p a) s ∧
      (∀ a' s', L.turn p a s = .ok (.inr a') s' →
        s'.lexer.ahead + L.inHand a' < s.lexer.ahead + L.inHand a) ∧
      ∀ turns, s.lexer.ahead + L.inHand a < turns →
        Answers (L.run p a turns) s ∧
          L.run p a turns s = L.run p a (s.lexer.ahead + L.inHand a + 1) s := by
  intro p
  have hadvances := hL.advances (agrees_productions fuel (Nat.le_refl _) (Nat.le_refl _))
  have hturn := hadvances a (Nat.le_refl _) (Nat.lt_of_succ_le hfuel)
  refine ⟨hturn.answers (Nat.le_refl _), fun a' s' hnext => ?_, fun turns hturns => ?_⟩
  · have hspare := (hturn s (Nat.le_refl _)).2
    rw [hnext] at hspare
    exact hspare
  · have hrun := hadvances.run a (Nat.le_refl _) (Nat.lt_of_succ_le hfuel) hturns
      (Nat.lt_succ_self _)
    exact ⟨hrun.answers (Nat.le_refl _), (hrun s (Nat.le_refl _)).1⟩

/-- There is fuel enough for a source. -/
theorem measure_script_le (cs : List Char) :
    Call.script.measure { lexer := Lexer.ofText cs } ≤ compileFuel cs := by
  have hahead := Lexer.ahead_ofText_le cs
  change 2 * (Lexer.ofText cs).ahead + 2 ≤ 2 * cs.length + 8
  omega

end Compile

/-- Compilation comes to an end; see the head of the module. -/
theorem compilation_terminates :
    (∀ {α : Type} (call : Call α) (s : CompileState) (fuel : Nat), call.measure s ≤ fuel →
      let p := productions fuel
      Answers (call.body p) s ∧ call.body (p.below (call.measure s)) s = call.body p s ∧
        ∀ more, call.measure s ≤ more → call.body (productions more) s = call.body p s) ∧
    (∀ L : Loop, L.InGrammar → ∀ (a : L.State) (s : CompileState) (fuel : Nat),
      2 * (s.lexer.ahead + L.inHand a) + 2 ≤ fuel →
      let p := productions fuel
      Answers (L.turn p a) s ∧
        (∀ a' s', L.turn p a s = .ok (.inr a') s' →
          s'.lexer.ahead + L.inHand a' < s.lexer.ahead + L.inHand a) ∧
        ∀ turns, s.lexer.ahead + L.inHand a < turns →
          Answers (L.run p a turns) s ∧
            L.run p a turns s = L.run p a (s.lexer.ahead + L.inHand a + 1) s) ∧
    ∀ source : String,
      let cs := Source.normalize source.toList
      compile source ≠ .error .exhausted ∧
        ∀ fuel, compileFuel cs ≤ fuel →
          compile source = match (script (productions fuel)).run { lexer := Lexer.ofText cs } with
            | .ok chunk _ => .ok chunk
            | .error failure _ => .error failure := by
  refine ⟨fun call s _ => call_terminates call s, fun L hL a s _ => loop_terminates hL a s,
    fun source => ?_⟩
  intro cs
  obtain ⟨hends, -, hmore⟩ := call_terminates .script _ (measure_script_le cs)
  constructor
  · intro hcompile
    rw [compile] at hcompile
    split at hcompile
    · cases hcompile
    · rename_i failure s' hrun
      cases hcompile
      exact hends s' hrun
  · intro fuel hfuel
    have hsame : (script (productions fuel)).run { lexer := Lexer.ofText cs } =
        (script (productions (compileFuel cs))).run { lexer := Lexer.ofText cs } :=
      hmore fuel ((measure_script_le cs).trans hfuel)
    rw [hsame]
    rfl

/-- A block is read from a semicolon on that was given back, and a script that is cut off after an
operator comes to an end. -/
theorem compilation_terminates_semicolon :
    let semicolon : Token := { kind := .mark .semicolon, position := ⟨1, 1⟩ }
    let s : CompileState := { lexer := (Lexer.ofText []).pushBack semicolon }
    let behind : CompileState := { lexer := Lexer.ofText [] }
    let cut : CompileState := { lexer := Lexer.ofText ['1', '+'] }
    (Call.statement.measure s ≤ 3 ∧ Answers (statement (productions 3)) s ∧
      Call.statement.measure s ≤ 4 ∧
      statement (productions 4) s = statement (productions 3) s) ∧
    (Loop.block.InGrammar ∧ 2 * (s.lexer.ahead + 0) + 2 ≤ 4 ∧
      Loop.block.turn (productions 4) () s = .ok (.inr ()) behind ∧
      behind.lexer.ahead < s.lexer.ahead ∧ s.lexer.ahead < 2 ∧
      Answers (blockBody (productions 4) 2) s) ∧
    Call.script.measure cut ≤ 12 ∧ Answers (script (productions 12)) cut ∧
      compile "1+" ≠ .error .exhausted := by
  intro semicolon s behind cut
  obtain ⟨hcalls, hloops, hcompile⟩ := compilation_terminates
  have hahead : s.lexer.ahead ≤ 1 := by
    have hnone := Lexer.ahead_ofText_le []
    exact (Lexer.ahead_pushBack_le _ semicolon).trans (Nat.add_le_add_right hnone 1)
  have hstatement : Call.statement.measure s ≤ 3 := by
    change 2 * s.lexer.ahead + 1 ≤ 3
    omega
  have hblock : 2 * (s.lexer.ahead + 0) + 2 ≤ 4 := by
    omega
  have hturns : s.lexer.ahead + 0 < 2 := by
    omega
  have hturn : Loop.block.turn (productions 4) () s = .ok (.inr ()) behind := rfl
  obtain ⟨hends, -, hmore⟩ := hcalls .statement s 3 hstatement
  obtain ⟨-, hprogress, hruns⟩ := hloops .block .block () s 4 hblock
  refine ⟨⟨hstatement, hends, hstatement.trans (by decide), hmore 4 (hstatement.trans (by decide))⟩,
    ⟨.block, hblock, hturn, hprogress () behind hturn, hturns, (hruns 2 hturns).1⟩,
    measure_script_le _, (hcalls .script cut 12 (measure_script_le _)).1, (hcompile "1+").1⟩

end ScriptEngine
