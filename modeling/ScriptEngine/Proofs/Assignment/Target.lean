import ScriptEngine.Proofs.Registers.Grammar
import ScriptEngine.Proofs.Statement.Watch

/-!
# Targets, whatever they are made of

The operand of an operator that assigns is compiled before the operator is seen. `Made n d b left f`
says that the compiler has made the code of an operand: the function in the making was `b` before
and is `f` now, the value goes into the register `d` and came from `left`. Nothing is said of the
tokens, so the operand may contain any expression, function literals included.

**Targets** (`Target`). The operands that can be assigned to are names, members and elements; in
parentheses, which make no code, also commas in front of one. What a target refers to is found in
parts: each part is a stretch of code that is run once, from its start to its end
(`Context.evaluate`).

Main result: an operand whose value was loaded from somewhere is a target (`Made.target`).
-/

namespace ScriptEngine

/-! ## Stretches of code -/

namespace Context

/-- Runs a stretch of code, which control leaves at its end. -/
def pass (x : Context) (start stop : Nat) : Script Unit := do
  let _ ← (x.frame.upTo stop).run x.call (stop - start + 1) start

/-- Runs the code of an expression and gives its value, which is in a register. -/
def evaluate (x : Context) (start stop : Nat) (register : Int) : Script Value := do
  x.pass start stop
  return x.frame.contents (← get) register

/-- Links a name to the activation of an enclosing function, if one of them declares it. -/
def link (x : Context) (enclosing : List FunctionState) (name : String) : Script Unit :=
  if enclosing.any fun f => (f.resolve name).isSome then
    Script.modifyHeap (·.captureUpvalue x.frame.activation name)
  else return ()

end Context

/-! ## Operands -/

/-- The compiler has made the code of an operand; see the head of the module. -/
inductive Made (n : Nat) (dest : Int) (b : FunctionState) : Operand → FunctionState → Prop where
  | leading {s s' : CompileState} {left : Operand} {t : Token} {power : Nat}
      (hpower : Power.Fits power dest) (ht : t.kind.startsStatement = true → Power.expression ≤ power)
      (hs : s.current = b) (h : Compile.leading (Compile.productions n) t power dest s = .ok left s')
      (hleft : left ≠ .done) : Made n dest b left s'.current
  | trailing {s s' : CompileState} {left left' : Operand} {t : Token}
      (h : Made n dest b left s.current)
      (h' : Compile.trailing (Compile.productions n) t left dest s = .ok left' s') :
      Made n dest b left' s'.current

namespace Made

open Compile

variable {n power : Nat} {dest : Int} {b f : FunctionState} {left : Operand} {s s' : CompileState}
  {t : Token}

theorem of_climb {fuel : Nat} {first : Operand} (hfirst : Made n dest b first s.current)
    (h : climb (productions n) power dest fuel first s = .ok left s') :
    Made n dest b left s'.current := by
  induction fuel generalizing first s with
  | zero => cases h
  | succ fuel ih =>
    obtain ⟨t, s₁, hnext, h⟩ := bind_eq_ok h
    have hsame : s₁.current = s.current := next_current hnext
    split at h
    · cases h
      exact hsame ▸ hfirst
    · obtain ⟨left', s₂, htrailing, h⟩ := bind_eq_ok h
      exact ih (.trailing (hsame ▸ hfirst) htrailing) h

/-- Whatever the compiler reads as an expression is an operand. -/
theorem of_expression (h : expressionWithin (n + 1) t power dest s = .ok left s')
    (hpower : Power.Fits power dest) (ht : t.kind.startsStatement = true → Power.expression ≤ power)
    (hleft : left ≠ .done) : Made n dest s.current left s'.current := by
  obtain ⟨first, s₁, hfirst, h⟩ := bind_eq_ok h
  split at h
  · cases h
    exact absurd ‹_› hleft
  · exact of_climb (.leading hpower ht rfl hfirst ‹_›) h

theorem two_le (h : Made n dest b left f) : 2 ≤ dest := by
  induction h with
  | leading hpower => exact hpower.elim (·.2) fun h => h.2 ▸ le_refl _
  | trailing _ _ ih => exact ih

/-- The code of an operand: a segment in which the load is, and which writes registers from the
destination on. -/
theorem code (h : Made n dest b left f) (hb : b.Settled) :
    Result b [] left f ∧ b.Leaves dest left f := by
  induction h with
  | leading hpower ht hs h hleft =>
    subst hs
    exact ⟨yields_leading (adding_productions n) _ _ _ ht _ (.refl _) _ _ h,
      confines_leading (confining_productions n) _ hpower (le_refl _) _ (.refl hb _) _ _ h⟩
  | trailing hmade h ih =>
    have hdest : 2 ≤ dest := hmade.two_le
    exact ⟨yields_trailing (adding_productions n) _ _ _ _ ⟨ih.1.1.toSegment, ih.1.2⟩ _ _ h,
      confines_trailing (confining_productions n) _ _ hdest (le_refl _) _ ih.2 _ _ h⟩

end Made

/-! ## Targets -/

/-- The compiler has made the code of a target, and a computation finds what it refers to. What
waits for an operator is in registers: the receiver of a member or element in the destination, its
key in the register behind. -/
inductive Target (x : Context) (dest : Int) :
    FunctionState → Operand → FunctionState → Script Reference → Prop where
  /-- A local. -/
  | slot {s s' : CompileState} {name : String} {place : Position} {register : Int} {load : Nat}
      (hname : s.current.resolve name = some register)
      (h : Compile.loadName name dest place s = .ok (.slot register load) s') :
      Target x dest s.current (.slot register load) s'.current (return .slot place register)
  /-- A name that is not local: a member of the activation. -/
  | name {s s' : CompileState} {name : String} {place : Position} {load : Nat}
      (hname : s.current.resolve name = none)
      (h : Compile.loadName name dest place s = .ok (.member 0 dest load) s') :
      Target x dest s.current (.member 0 dest load) s'.current (do
        x.link s.enclosing name
        x.frame.write dest (.str name)
        return .member place x.scope (.str name))
  /-- A member of a value. -/
  | dot {n : Nat} {b : FunctionState} {left : Operand} {s s₁ s' : CompileState} {name : String}
      {place behind : Position} {load : Nat} (he : Made n dest b left s.current)
      (ht : Compile.next s = .ok ⟨.ident name, behind⟩ s₁)
      (h : Compile.dotMember dest place s = .ok (.member dest (dest + 1) load) s') :
      Target x dest b (.member dest (dest + 1) load) s'.current (do
        let v ← x.evaluate b.size s.current.size dest
        x.frame.write (dest + 1) (.str name)
        return .member place v (.str name))
  /-- An element of a value, whose key is an expression. -/
  | index {n m : Nat} {b : FunctionState} {left : Operand} {s s' : CompileState} {place : Position}
      {load : Nat} (he : Made n dest b left s.current)
      (h : Compile.indexMember (Compile.productions m) dest place s =
        .ok (.member dest (dest + 1) load) s') :
      Target x dest b (.member dest (dest + 1) load) s'.current (do
        let v ← x.evaluate b.size s.current.size dest
        let key ← x.evaluate s.current.size load (dest + 1)
        return .member place v key)
  /-- A target behind a comma. -/
  | comma {n : Nat} {b f f' : FunctionState} {first left : Operand} {refer : Script Reference}
      (hfirst : Made n dest b first f) (h : Target x dest f left f' refer) :
      Target x dest b left f' (do
        x.pass b.size f.size
        refer)

namespace Compile

/-- A construct whose value is computed, not loaded from somewhere. -/
def Computes (m : Compile Operand) : Prop :=
  ∀ s left s', m s = .ok left s' → left.load? = none

namespace Computes

variable {α : Type} {m : Compile α} {p : Productions} {dest : Int} {place : Position}

theorem temp : Computes (pure .temp) := fun s left s' h => by
  cases h
  rfl

theorem fail (cause : GrammarFault) : Computes (fail cause place) := fun s left s' h => by cases h

theorem bind {k : α → Compile Operand} (h : ∀ a, Computes (k a)) : Computes (m >>= k) := by
  intro s left s' hm
  obtain ⟨a, s₁, -, hk⟩ := bind_eq_ok hm
  exact h a s₁ left s' hk

theorem assign (left : Operand) (op? : Option Op) : Computes (assign p left op? dest place) := by
  unfold Compile.assign
  split
  · exact bind fun _ => bind fun _ => bind fun _ => temp
  · exact bind fun _ => bind fun _ => bind fun _ => temp
  · exact bind fun _ => bind fun _ => bind fun _ => bind fun _ => temp
  · exact bind fun _ => bind fun _ => bind fun _ => bind fun _ => bind fun _ => temp
  · exact fail _

theorem stepBefore (op : Op) : Computes (stepBefore p op dest place) := by
  refine bind fun left => ?_
  split
  · exact bind fun _ => bind fun _ => temp
  · exact bind fun _ => bind fun _ => bind fun _ => bind fun _ => temp
  · exact fail _

theorem stepAfter (left : Operand) (op : Op) : Computes (stepAfter left op dest place) := by
  unfold Compile.stepAfter
  split
  · exact bind fun _ => bind fun _ => temp
  · exact bind fun _ => bind fun _ => bind fun _ => bind fun _ => temp
  · exact fail _

theorem delete : Computes (delete p dest place) := by
  refine bind fun left => ?_
  split
  · exact bind fun _ => bind fun _ => bind fun _ => temp
  · exact bind fun _ => bind fun _ => temp
  · exact bind fun _ => bind fun _ => temp

theorem ternary : Computes (ternary p dest place) :=
  bind fun _ => bind fun _ => bind fun _ => bind fun _ => bind fun _ => bind fun _ => bind fun _ =>
    bind fun _ => bind fun _ => temp

theorem shortCircuit {leave op decided : Op} {power : Nat} :
    Computes (shortCircuit p leave op decided power dest place) :=
  bind fun _ => bind fun _ => bind fun _ => bind fun _ => bind fun _ => bind fun _ => bind fun _ =>
    bind fun _ => bind fun _ => temp

theorem unary (op : Op) (power : Nat) : Computes (unary p op power dest place) :=
  bind fun _ => bind fun _ => temp

theorem newInstance : Computes (newInstance p dest place) := by
  refine bind fun t => ?_
  have hrest : ∀ fallback : Int, Computes (do
      let _ ← p.expression t Power.primary dest
      let fallback ← classPath p fallback dest p.budget
      let _ ← emitAt place .newObject dest dest fallback
      let t ← next
      if t.kind = .mark .lParen then
        let behind ← arguments p (dest + 1)
        let _ ← emitAt place .call dest (dest + 1) behind
      else
        pushBack t
        let _ ← emitAt place .call dest (dest + 1) (dest + 1)
      return .temp) := fun fallback => by
    refine bind fun _ => bind fun _ => bind fun _ => bind fun t => ?_
    dsimp only
    split
    · exact bind fun _ => bind fun _ => temp
    · exact bind fun _ => bind fun _ => temp
  split
  · exact bind fun k => hrest k
  · exact hrest (-1)

theorem function {power : Nat} : Computes (function p power dest place) := by
  refine bind fun r => bind fun params => bind fun slot => bind fun chunk => bind fun _ => ?_
  split
  · exact temp
  · refine bind fun _ => fun s left s' h => ?_
    cases h
    split <;> rfl

end Computes

end Compile

open Compile

section

variable {x : Context} {n : Nat} {dest : Int} {b f : FunctionState} {left : Operand} {load : Nat}
  {p : Productions} {place : Position} {s s' : CompileState}

/-- A construct that starts at a state makes the code of a target, if its value is loaded from
somewhere; the function in the making was `b` before the whole target. -/
def Compile.FindsTarget (x : Context) (dest : Int) (b : FunctionState) (s : CompileState)
    (m : Compile Operand) : Prop :=
  ∀ left s' load, m s = .ok left s' → left.load? = some load →
    ∃ refer, Target x dest b left s'.current refer

/-- Whatever a grammar reads as an expression is a target, if its value is loaded. -/
def Productions.FindsTargets (p : Productions) (x : Context) : Prop :=
  ∀ first power dest s, Power.expression ≤ power → 2 ≤ dest →
    Compile.FindsTarget x dest s.current s (p.expression first power dest)

theorem Compile.Computes.finds {m : Compile Operand} (h : Computes m) : FindsTarget x dest b s m := by
  intro left s' load hm hload
  rw [h s left s' hm] at hload
  cases hload

theorem finds_loadName (name : String) : FindsTarget x dest s.current s (loadName name dest place) := by
  intro left s' load h _
  obtain ⟨s₀, s₁, hget, h'⟩ := bind_eq_ok h
  cases hget
  rcases hname : s.current.resolve name with _ | register <;> simp only [hname] at h'
  · obtain ⟨k, s₁, -, h'⟩ := bind_eq_ok h'
    have hlast : ∀ {s₁}, (do
        let _ ← emitAt place .loadConst dest k
        let load ← emitAt place .dot dest 0 dest
        return Operand.member 0 dest load) s₁ = .ok left s' → ∃ load, left = .member 0 dest load := by
      intro s₁ h
      obtain ⟨_, s₂, -, h⟩ := bind_eq_ok h
      obtain ⟨load, s₃, -, h⟩ := bind_eq_ok h
      cases h
      exact ⟨load, rfl⟩
    obtain ⟨load, rfl⟩ : ∃ load, left = .member 0 dest load := by
      split at h'
      · obtain ⟨_, s₂, -, h'⟩ := bind_eq_ok h'
        exact hlast h'
      · exact hlast h'
    exact ⟨_, .name hname h⟩
  · obtain ⟨load, s₁, -, h'⟩ := bind_eq_ok h'
    cases h'
    exact ⟨_, .slot hname h⟩

/-- Parentheses make no code. -/
theorem finds_paren (hp : p.FindsTargets x) (hdest : 2 ≤ dest) :
    FindsTarget x dest s.current s (paren p dest) := by
  intro left s' load h hleft
  have hinner : ∀ {first s₁}, (do
      let left ← p.expression first Power.expression dest
      expect (.mark .rParen)
      return left) s₁ = .ok left s' → ∃ refer, Target x dest s₁.current left s'.current refer := by
    intro first s₁ h
    obtain ⟨left₁, s₂, hexpr, h⟩ := bind_eq_ok h
    obtain ⟨_, s₃, hexpect, h⟩ := bind_eq_ok h
    cases h
    rw [expect_current hexpect]
    exact hp _ _ _ _ (le_refl _) hdest _ _ _ hexpr hleft
  obtain ⟨first, s₁, hnext, h⟩ := bind_eq_ok h
  rw [← next_current hnext]
  rcases hcast : castOp? first.kind with _ | op <;> simp only [hcast] at h
  · exact hinner h
  · obtain ⟨second, s₂, hnext, h⟩ := bind_eq_ok h
    rw [← next_current hnext]
    split at h
    · exact (Computes.unary _ _).finds _ _ _ h hleft
    · obtain ⟨_, s₃, hpush, h⟩ := bind_eq_ok h
      rw [← yields_pushBack (P := (· = s₂.current)) second s₂ rfl _ _ hpush]
      exact hinner h

theorem finds_leading (hp : p.FindsTargets x) {t : Token} {power : Nat} (hdest : 2 ≤ dest)
    (ht : t.kind.startsStatement = true → Power.expression ≤ power) :
    FindsTarget x dest s.current s (leading p t power dest) := by
  unfold leading
  by_cases hstart : (t.kind.startsStatement && decide (Power.expression ≤ power)) = true
  · rw [if_pos hstart]
    exact (Computes.fail _).finds
  · rw [if_neg hstart]
    have hfalse : t.kind.startsStatement = false := by
      by_contra h
      rw [Bool.not_eq_false] at h
      exact hstart (by simp [h, ht h])
    split
    · exact (Computes.bind fun _ => .bind fun _ => .temp).finds
    · exact (Computes.bind fun _ => .bind fun _ => .temp).finds
    · exact finds_loadName _
    · exact (Computes.fail _).finds
    · split
      all_goals first
        | exact finds_paren hp hdest
        | exact (Computes.unary _ _).finds
        | exact (Computes.stepBefore _).finds
        | exact (Computes.fail _).finds
        | exact (Computes.bind fun _ => .bind fun _ => .temp).finds
        | (rename_i hkind; rw [hkind] at hfalse; cases hfalse)
    · split
      all_goals first
        | exact (Computes.bind fun _ => .temp).finds
        | exact (Computes.unary _ _).finds
        | exact Computes.function.finds
        | exact Computes.newInstance.finds
        | exact Computes.delete.finds
        | exact (Computes.fail _).finds
        | (rename_i hkind; rw [hkind] at hfalse; cases hfalse)

theorem finds_dotMember {first : Operand} (he : Made n dest b first s.current) :
    FindsTarget x dest b s (dotMember dest place) := by
  intro left s' load h _
  obtain ⟨⟨kind, behind⟩, s₁, hnext, h'⟩ := bind_eq_ok h
  cases kind with
  | ident name =>
    obtain ⟨k, s₂, -, h'⟩ := bind_eq_ok h'
    obtain ⟨_, s₃, -, h'⟩ := bind_eq_ok h'
    obtain ⟨load, s₄, -, h'⟩ := bind_eq_ok h'
    cases h'
    exact ⟨_, .dot he hnext h⟩
  | _ => cases h'

theorem finds_indexMember {first : Operand} (he : Made n dest b first s.current) :
    FindsTarget x dest b s (indexMember (productions n) dest place) := by
  intro left s' load h _
  obtain ⟨_, s₁, -, h'⟩ := bind_eq_ok h
  obtain ⟨_, s₂, -, h'⟩ := bind_eq_ok h'
  obtain ⟨load, s₃, -, h'⟩ := bind_eq_ok h'
  cases h'
  exact ⟨_, .index he h⟩

theorem finds_comma (hp : (productions n).FindsTargets x) {first : Operand}
    (he : Made n dest b first s.current) :
    FindsTarget x dest b s (parse (productions n) Power.comma dest) := by
  intro left s' load h hleft
  obtain ⟨t, s₁, hnext, h⟩ := bind_eq_ok h
  obtain ⟨refer, hrefer⟩ := hp t _ _ s₁ (by decide) he.two_le _ _ _ h hleft
  exact ⟨_, .comma he (next_current hnext ▸ hrefer)⟩

theorem finds_trailing (hp : (productions n).FindsTargets x) {t : Token} {first : Operand}
    (he : Made n dest b first s.current) :
    FindsTarget x dest b s (trailing (productions n) t first dest) := by
  unfold trailing
  dsimp only
  split
  · exact (Computes.bind fun _ => .bind fun _ => .temp).finds
  · exact (Computes.assign _ _).finds
  · split
    · exact (Computes.assign _ _).finds
    · exact finds_comma hp he
    · exact Computes.ternary.finds
    · exact Computes.shortCircuit.finds
    · exact Computes.shortCircuit.finds
    · exact (Computes.stepAfter _ _).finds
    · exact (Computes.stepAfter _ _).finds
    · exact finds_dotMember he
    · exact finds_indexMember he
    · exact (Computes.bind fun _ => .bind fun _ => .temp).finds
    · exact (Computes.fail _).finds

theorem Made.target_of (hp : (productions n).FindsTargets x) (h : Made n dest b left f)
    (hleft : left.load? = some load) : ∃ refer, Target x dest b left f refer := by
  cases h with
  | leading hpower ht hs h _ =>
    subst hs
    exact finds_leading hp (hpower.elim (·.2) fun h => h.2 ▸ le_refl _) ht _ _ _ h hleft
  | trailing h h' => exact finds_trailing hp h _ _ _ h' hleft

theorem findsTargets_productions (n : Nat) (x : Context) : (productions n).FindsTargets x := by
  induction n with
  | zero => exact fun _ _ _ _ _ _ _ _ _ h => by cases h
  | succ n ih =>
    intro first power dest s hpower hdest left s' load h hleft
    refine (Made.of_expression h (.inl ⟨hpower, hdest⟩) (fun _ => hpower) ?_).target_of ih hleft
    rintro rfl
    cases hleft

/-- An operand whose value was loaded from somewhere is a target. -/
theorem Made.target (h : Made n dest b left f) (hleft : left.load? = some load) (x : Context) :
    ∃ refer, Target x dest b left f refer :=
  h.target_of (findsTargets_productions n x) hleft

end

end ScriptEngine
