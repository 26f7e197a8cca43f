import ScriptEngine.Proofs.Assignment.Operators
import ScriptEngine.Proofs.Expression.Faithful

/-!
# Assignments are compiled soundly

A compiler that comes to an operator that assigns has made the code of the operand, and the operand
may contain any expression (`Change.Meets`). If the operand is a target, the compiler goes on with
the right side, from a state in which only the load of the target was changed, and makes code that
does what `Change.run` says (`Change.Compiles`). If it is none, the compiler refuses the operand
(`Change.Refuses`).

Main result: `assignment_code_is_sound`.
-/

namespace ScriptEngine

open Compile

namespace Change

/-! ## Operators that are met -/

/-- The compiler comes to an operator: from `b` to the state `s` it has made the code of the
operand, and goes on to a result. -/
inductive Meets (n : Nat) (dest : Int) (t : Token) : Change → FunctionState → Operand →
    CompileState → EStateM.Result Failure CompileState Operand → Prop where
  | assign {op : AssignOp} {b : FunctionState} {left : Operand} {s : CompileState}
      (ht : t.kind = op.kind) (h : Made n dest b left s.current) :
      Meets n dest t (.assign op) b left s (trailing (productions n) t left dest s)
  | stepAfter {op : StepOp} {b : FunctionState} {left : Operand} {s : CompileState}
      (ht : t.kind = op.kind) (h : Made n dest b left s.current) :
      Meets n dest t (.stepAfter op) b left s (trailing (productions n) t left dest s)
  | stepBefore {op : StepOp} {power : Nat} {first : Token} {s₀ s₁ s : CompileState} {left : Operand}
      (ht : t.kind = op.kind) (hnext : next s₀ = .ok first s₁)
      (h : expressionWithin n first Power.unary dest s₁ = .ok left s) :
      Meets n dest t (.stepBefore op) s₀.current left s (leading (productions n) t power dest s₀)
  | delete {power : Nat} {first : Token} {s₀ s₁ s : CompileState} {left : Operand}
      (ht : t.kind = .keyword .delete) (hnext : next s₀ = .ok first s₁)
      (h : expressionWithin n first Power.convert dest s₁ = .ok left s) :
      Meets n dest t .delete s₀.current left s (leading (productions n) t power dest s₀)

/-- The compilation of the right side, if the operator has one. -/
def readRight (n : Nat) (spare : Int) : Change → Compile Unit
  | .assign op => do
    let _ ← parse (productions n) (Power.assignment - 1) ((assign op).rightRegister spare)
  | _ => return ()

/-- The compilation of an operator at a place: it succeeds with code that does what the operator
does, or fails where the right side does. In front of the right side only the load of the target is
changed. -/
def Compiles (u : Change) (n : Nat) (dest : Int) (place : Position) (b : FunctionState)
    (left : Operand) (s : CompileState) (result : EStateM.Result Failure CompileState Operand)
    (x : Context) (refer : Script Reference) : Prop :=
  ∃ (c : Chunk) (load : Nat) (M : Instruction → Instruction), left.load? = some load ∧
    s.current.Changes load M { s.current with chunk := c } ∧
    match u.readRight n (left.spare dest) { s with current := { s.current with chunk := c } } with
    | .error failure s₂ => result = .error failure s₂
    | .ok _ s₂ => ∃ s', result = .ok .temp s' ∧
        x.Performs b s'.current dest (u.run x place (left.spare dest) refer
          (x.evaluate s.current.size s₂.current.size (u.rightRegister (left.spare dest))))

/-- The compilation of an operator refuses its operand. -/
def Refuses (place : Position) (result : EStateM.Result Failure CompileState Operand) : Prop :=
  ∃ error s', result = .error (.error error) s' ∧ error.fault.code = "syntax" ∧
    error.message = "operand must be a variable" ∧ error.trace = [place]

/-! ## Targets -/

section

variable {n : Nat} {dest : Int} {place : Position} {b : FunctionState} {left : Operand}
  {s : CompileState} {x : Context} {refer : Script Reference}

theorem compiles_assign (op : AssignOp) {c : Chunk} {load : Nat} {M : Instruction → Instruction}
    {behind : Compile Operand} (hload : left.load? = some load)
    (hc : s.current.Changes load M { s.current with chunk := c })
    (h : ∀ right s₂, parse (productions n) (Power.assignment - 1)
        ((assign op).rightRegister (left.spare dest))
        { s with current := { s.current with chunk := c } } = .ok right s₂ →
      ∃ s', behind s₂ = .ok .temp s' ∧
        x.Performs b s'.current dest ((assign op).run x place (left.spare dest) refer
          (x.evaluate s.current.size s₂.current.size
            ((assign op).rightRegister (left.spare dest))))) :
    (assign op).Compiles n dest place b left s
      ((do
        let _ ← parse (productions n) (Power.assignment - 1)
          ((assign op).rightRegister (left.spare dest))
        behind) { s with current := { s.current with chunk := c } }) x refer := by
  refine ⟨c, load, M, hload, hc, ?_⟩
  rw [readRight, bind_apply, bind_apply]
  rcases hparse : parse (productions n) (Power.assignment - 1)
    ((assign op).rightRegister (left.spare dest))
    { s with current := { s.current with chunk := c } } with ⟨right, s₂⟩ | ⟨failure, s₂⟩
  · exact h right s₂ hparse
  · rfl

/-- The right side of a step or deletion is empty. -/
theorem compiles_alone {u : Change} {c : Chunk} {load : Nat} {M : Instruction → Instruction}
    {s' : CompileState} {result : EStateM.Result Failure CompileState Operand}
    (hu : ∀ spare s, u.readRight n spare s = .ok () s) (hload : left.load? = some load)
    (hc : s.current.Changes load M { s.current with chunk := c }) (hresult : result = .ok .temp s')
    (h : ∀ right, x.Performs b s'.current dest (u.run x place (left.spare dest) refer right)) :
    u.Compiles n dest place b left s result x refer :=
  ⟨c, load, M, hload, hc, by rw [hu]; exact ⟨s', hresult, h _⟩⟩

variable (htarget : Target x dest b left s.current refer) (hb : b.Settled) (hd : 2 ≤ dest)

include htarget hb hd

theorem compiles_assignment (op : AssignOp) :
    (assign op).Compiles n dest place b left s
      (Compile.assign (productions n) left op.op? dest place s) x refer := by
  obtain ⟨load, hload⟩ := htarget.load
  cases left with
  | slot r load =>
    cases op with
    | plain =>
      have hc := FunctionState.Changes.modifyAt s.current load ({ · with op := .nop })
      exact compiles_assign .plain rfl hc fun right s₂ hparse =>
        ⟨_, rfl, performs_assignLocal htarget hb hd hc hparse⟩
    | compound kind o ho =>
      exact compiles_assign (.compound kind o ho) rfl (.refl s.current load)
        fun right s₂ hparse => ⟨_, rfl, performs_compoundLocal htarget hb hd hparse⟩
  | member a c load =>
    cases op with
    | plain =>
      have hc := FunctionState.Changes.modifyAt s.current load ({ · with op := .nop })
      exact compiles_assign .plain rfl hc fun right s₂ hparse =>
        ⟨_, rfl, performs_assignMember htarget hb hd hc hparse⟩
    | compound kind o ho =>
      have hc := FunctionState.Changes.retarget s.current load (above dest a c)
      exact compiles_assign (.compound kind o ho) rfl hc fun right s₂ hparse =>
        ⟨_, rfl, performs_compoundMember htarget hb hd hc hparse⟩
  | _ => cases hload

theorem compiles_stepAfter (op : StepOp) :
    (stepAfter op).Compiles n dest place b left s (Compile.stepAfter left op.after dest place s) x
      refer := by
  obtain ⟨load, hload⟩ := htarget.load
  cases left with
  | slot r load =>
    have hc := FunctionState.Changes.modifyAt s.current load ({ · with op := .nop })
    exact compiles_alone (fun _ _ => rfl) rfl hc rfl fun _ =>
      performs_stepAfterLocal htarget hb hd hc op
  | member a c load =>
    have hc := FunctionState.Changes.retarget s.current load (above dest a c)
    exact compiles_alone (fun _ _ => rfl) rfl hc rfl fun _ =>
      performs_stepAfterMember htarget hb hd hc op
  | _ => cases hload

theorem compiles_stepBefore (op : StepOp) {s₀ : CompileState}
    (h : parse (productions n) Power.unary dest s₀ = .ok left s) :
    (stepBefore op).Compiles n dest place b left s
      (Compile.stepBefore (productions n) op.before dest place s₀) x refer := by
  obtain ⟨load, hload⟩ := htarget.load
  rw [Compile.stepBefore, bind_apply, h]
  cases left with
  | slot r load =>
    have hc := FunctionState.Changes.modifyAt s.current load ({ · with op := .nop })
    exact compiles_alone (fun _ _ => rfl) rfl hc rfl fun _ =>
      performs_stepBeforeLocal htarget hb hd hc op
  | member a c load =>
    have hc := FunctionState.Changes.retarget s.current load (above dest a c)
    exact compiles_alone (fun _ _ => rfl) rfl hc rfl fun _ =>
      performs_stepBeforeMember htarget hb hd hc op
  | _ => cases hload

theorem compiles_delete {s₀ : CompileState}
    (h : parse (productions n) Power.convert dest s₀ = .ok left s) :
    delete.Compiles n dest place b left s (Compile.delete (productions n) dest place s₀) x refer := by
  obtain ⟨load, hload⟩ := htarget.load
  rw [Compile.delete, bind_apply, h]
  cases left with
  | slot r load =>
    have hc := FunctionState.Changes.modifyAt s.current load ({ · with op := .nop })
    exact compiles_alone (fun _ _ => rfl) rfl hc rfl fun _ => performs_deleteLocal htarget hb hd hc
  | member a c load =>
    have hc := FunctionState.Changes.modifyAt s.current load fun _ => ⟨.delete, a, c, 0, place⟩
    exact compiles_alone (fun _ _ => rfl) rfl hc rfl fun _ =>
      performs_deleteMember htarget hb hd _ hc
  | _ => cases hload

end

/-! ## Any operand -/

section

variable {n : Nat} {dest : Int} {t : Token} {u : Change} {b : FunctionState} {left : Operand}
  {s : CompileState} {result : EStateM.Result Failure CompileState Operand}

theorem parse_of_next {power : Nat} {first : Token} {s₀ s₁ : CompileState}
    (hnext : next s₀ = .ok first s₁) (h : expressionWithin n first power dest s₁ = .ok left s) :
    parse (productions n) power dest s₀ = .ok left s := by
  rw [parse, bind_apply, hnext]
  exact h

theorem Meets.compiles (h : u.Meets n dest t b left s result) (hb : b.Settled) (hd : 2 ≤ dest)
    {x : Context} {refer : Script Reference} (htarget : Target x dest b left s.current refer) :
    u.Compiles n dest t.position b left s result x refer := by
  cases h with
  | assign ht hmade =>
    rw [trailing_assign ht]
    exact compiles_assignment htarget hb hd _
  | stepAfter ht hmade =>
    rw [trailing_step ht]
    exact compiles_stepAfter htarget hb hd _
  | stepBefore ht hnext h =>
    rw [leading_step ht]
    exact compiles_stepBefore htarget hb hd _ (parse_of_next hnext h)
  | delete ht hnext h =>
    rw [leading_delete ht]
    exact compiles_delete htarget hb hd (parse_of_next hnext h)

theorem Meets.made (h : u.Meets n dest t b left s result) (hd : 2 ≤ dest) {load : Nat}
    (hload : left.load? = some load) : ∃ m, Made m dest b left s.current := by
  have hmade : ∀ {first : Token} {power : Nat} {s₀ s₁ : CompileState}, next s₀ = .ok first s₁ →
      expressionWithin n first power dest s₁ = .ok left s → Power.expression ≤ power →
      ∃ m, Made m dest s₀.current left s.current := by
    intro first power s₀ s₁ hnext h hpower
    obtain ⟨m, rfl⟩ : ∃ m, n = m + 1 := by
      cases n with
      | zero => cases h
      | succ m => exact ⟨m, rfl⟩
    rw [← next_current hnext]
    exact ⟨m, .of_expression h (.inl ⟨hpower, hd⟩) (fun _ => hpower) (by rintro rfl; cases hload)⟩
  cases h with
  | assign _ h | stepAfter _ h => exact ⟨n, h⟩
  | stepBefore _ hnext h | delete _ hnext h => exact hmade hnext h (by decide)

theorem Meets.refuses (h : u.Meets n dest t b left s result) (hload : left.load? = none) :
    Refuses t.position result := by
  have hfail : Refuses t.position ((fail .notAssignable t.position : Compile Operand) s) :=
    ⟨_, s, rfl, rfl, rfl, rfl⟩
  cases h with
  | assign ht hmade =>
    rw [trailing_assign ht]
    cases left <;> first | exact hfail | cases hload
  | stepAfter ht hmade =>
    rw [trailing_step ht]
    cases left <;> first | exact hfail | cases hload
  | stepBefore ht hnext h =>
    rw [leading_step ht, Compile.stepBefore, bind_apply, parse_of_next hnext h]
    cases left <;> first | exact hfail | cases hload
  | delete ht hnext h =>
    rw [leading_delete ht, Compile.delete, bind_apply, parse_of_next hnext h]
    cases left <;> first | exact hfail | cases hload

end

end Change

/-- The code of an operator does what `Change.run` says, whatever its operand and its right side
are made of, if the operand is a target. Any other operand is refused. -/
theorem assignment_code_is_sound {n : Nat} {dest : Int} {t : Token} {u : Change} {b : FunctionState}
    {left : Operand} {s : CompileState} {result : EStateM.Result Failure CompileState Operand}
    (h : u.Meets n dest t b left s result) (hb : b.Settled) (hd : 2 ≤ dest) (x : Context) :
    (∀ refer, Target x dest b left s.current refer →
        u.Compiles n dest t.position b left s result x refer) ∧
      ((∀ refer, ¬ Target x dest b left s.current refer) → Change.Refuses t.position result) := by
  refine ⟨fun refer htarget => h.compiles hb hd htarget, fun hnone => h.refuses ?_⟩
  by_contra hsome
  obtain ⟨load, hload⟩ := Option.ne_none_iff_exists'.1 hsome
  obtain ⟨m, hmade⟩ := h.made hd hload
  obtain ⟨refer, htarget⟩ := hmade.target hload x
  exact hnone refer htarget

/-- Reads a script that starts with an update of a member, and gives the operands, the operator and
the code. -/
def memberUpdate : Compile (Operand × Operand × Token × FunctionState) := do
  let first ← next
  let base ← leading (productions 40) first Power.expression resultRegister
  let dot ← next
  let left ← trailing (productions 40) dot base resultRegister
  let op ← next
  let _ ← trailing (productions 40) op left resultRegister
  return (base, left, op, (← get).current)

theorem memberUpdate_meets {s₀ : CompileState} {base left : Operand} {t : Token}
    {f : FunctionState} (op : AssignOp) (h : memberUpdate.run' s₀ = some (base, left, t, f))
    (hs₀ : s₀.current = .script) (hbase : base ≠ .done) (ht : t.kind = op.kind) :
    ∃ s o s', s'.current = f ∧
      (Change.assign op).Meets 40 resultRegister t .script left s (.ok o s') := by
  obtain ⟨s', h⟩ : ∃ s', memberUpdate s₀ = .ok (base, left, t, f) s' := by
    unfold EStateM.run' at h
    split at h <;> cases h
    exact ⟨_, ‹_›⟩
  obtain ⟨first, s₁, hfirst, h⟩ := bind_eq_ok h
  obtain ⟨base, s₂, hleading, h⟩ := bind_eq_ok h
  obtain ⟨dot, s₃, hdot, h⟩ := bind_eq_ok h
  obtain ⟨left, s₄, htrailing, h⟩ := bind_eq_ok h
  obtain ⟨t, s₅, hnext, h⟩ := bind_eq_ok h
  obtain ⟨o, s₆, hresult, h⟩ := bind_eq_ok h
  cases h
  have hstart : s₁.current = .script := (next_current hfirst).trans hs₀
  have hmade : Made 40 resultRegister .script base s₃.current := by
    rw [next_current hdot]
    exact .leading (.inl ⟨le_refl _, le_refl _⟩) (fun _ => le_refl _) hstart hleading hbase
  have hmade : Made 40 resultRegister .script left s₅.current := by
    rw [next_current hnext]
    exact .trailing hmade htrailing
  exact ⟨s₅, o, s', rfl, hresult ▸ .assign ht hmade⟩

/-- A script with a function literal on the right, on a new engine. -/
theorem assignment_code_is_sound_literal :
    ∃ (t : Token) (left : Operand) (s s' : CompileState) (root : Chunk) (x : Context) (e₀ : Engine)
      (refer : Script Reference) (stop : Nat),
      (Change.assign (.compound (.mark .addAssign) .add rfl)).Meets 40 resultRegister t .script left s
        (.ok .temp s') ∧
      FunctionState.script.Settled ∧ 2 ≤ resultRegister ∧
      compile "o.f += function (n) \x7b return n; \x7d" = .ok root ∧
      newFrame root ⟨0⟩ .void #[] (Engine.create {}) = .ok x.frame e₀ ∧
      Target x resultRegister .script left s.current refer ∧
      x.Proper ∧ x.frame.chunk.Shows 0 s'.current.size s'.current ∧ x.frame.Sits e₀ ∧
      x.frame.contents e₀ 0 = x.scope ∧
      x.Performs .script s'.current resultRegister
        ((Change.assign (.compound (.mark .addAssign) .add rfl)).run x t.position
          (left.spare resultRegister) refer
          (x.evaluate s.current.size stop (left.spare resultRegister + 1))) := by
  have hcheck : ((compile "o.f += function (n) \x7b return n; \x7d").toOption.any fun root =>
      (memberUpdate.run' (.ofText (Source.normalize
        "o.f += function (n) \x7b return n; \x7d".toList))).any fun r =>
          decide (r.1 ≠ .done ∧ r.2.2.1.kind = .mark .addAssign ∧
            root.code.toList.take r.2.2.2.size = r.2.2.2.chunk.code.toList ∧
            ∀ k < r.2.2.2.chunk.constants.size, root.nameAt? k = r.2.2.2.chunk.nameAt? k)) = true := by
    decide +kernel
  obtain ⟨root, hroot, hcheck⟩ := Option.any_eq_true _ _ |>.1 hcheck
  obtain ⟨⟨base, left, t, f⟩, hmember, hcheck⟩ := Option.any_eq_true _ _ |>.1 hcheck
  obtain ⟨hbase, ht, hcode, hnames⟩ := of_decide_eq_true hcheck
  have hcompile : compile "o.f += function (n) \x7b return n; \x7d" = .ok root := by
    unfold Except.toOption at hroot
    split at hroot <;> cases hroot
    assumption
  obtain ⟨s, o, s', rfl, hmeets⟩ :=
    memberUpdate_meets (.compound (.mark .addAssign) .add rfl) hmember rfl hbase ht
  obtain ⟨f, e₀, hnew, rfl, hproper, hsits⟩ :=
    sits_newFrame ⟨_, root, hcompile, .refl _⟩ (Engine.intact_create {}) ⟨0⟩ .void #[]
  let x : Context := f.context (callWithin 5) ⟨fun _ => none, fun _ => false⟩ e₀
  have hlocals : ∀ name register, x.names.slot? name = some register → register < 0 := by
    intro name register h
    cases h
  obtain ⟨hsound, hrefused⟩ :=
    assignment_code_is_sound hmeets FunctionState.settled_script (le_refl _) x
  obtain ⟨refer, htarget⟩ : ∃ refer, Target x resultRegister .script left s.current refer := by
    by_contra hnone
    obtain ⟨error, s, hfailed, -⟩ := hrefused fun refer h => hnone ⟨refer, h⟩
    cases hfailed
  obtain ⟨c, load, M, -, -, hcompiles⟩ := hsound refer htarget
  split at hcompiles
  · cases hcompiles
  · obtain ⟨s'', hs'', hperforms⟩ := hcompiles
    cases hs''
    exact ⟨t, left, s, s', f.chunk, x, e₀, refer, _, hmeets, FunctionState.settled_script, le_refl _,
      hcompile, hnew, htarget, ⟨hproper, calm_callWithin 5, hlocals⟩, .of_take hcode hnames, hsits, rfl,
      hperforms⟩

end ScriptEngine
