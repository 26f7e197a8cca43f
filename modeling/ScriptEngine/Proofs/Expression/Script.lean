import ScriptEngine.Proofs.Expression.Parse
import ScriptEngine.Proofs.Expression.Targets
import ScriptEngine.Proofs.Tame.Host

/-!
# Scripts that are one expression

The way from a source that holds a single expression to a frame that runs its code. The source is
compiled to the code of the tree and a return (`compile_expression`), or fails where an operator
has no target. A new frame of a compiled chunk sits on the engine it was made on
(`sits_newFrame`): no name stands for one of its temporaries.
-/

namespace ScriptEngine

/-! ## Compilation -/

theorem Expr.first_ne_finish (e : Expr) : e.first.kind ≠ .finish := by
  fun_induction first e
  case case9 op _ _ => rcases op with _ | _ | _ | _ | _ | _ | _ | (_ | _ | _) <;> rintro ⟨⟩
  case case23 op _ _ => cases op <;> rintro ⟨⟩
  all_goals first | assumption | rintro ⟨⟩

namespace Compile

variable {s₀ : CompileState} {e : Expr} {c : Draft} {pl : Option Position} {finish : Position}

/-- An expression that stands alone is a statement, whose value goes into the result register. -/
theorem takes_statement {n : Nat} (hsize : e.size < n) (hfits : e.Fits Power.statement)
    (hstops : e.Stops .finish) :
    Takes s₀ ⟨c, pl, e.first :: (e.rest ++ [⟨.finish, finish⟩])⟩ (statementWithin (n + 1)) e.fault?
      () ⟨e.gen s₀.names resultRegister c, none, [⟨.finish, finish⟩]⟩ := by
  have hsemicolon : e.first.kind ≠ .mark .semicolon := e.first_ne rfl
  have hterminator : isTerminator e.first.kind = false := by
    simp [isTerminator, hsemicolon, e.first_ne_finish, e.first_ne (show
      (Token.Kind.mark .rBrace).opens = false from rfl)]
  refine takes_next.andThen ?_
  rw [if_neg hsemicolon, if_neg (by simp [hterminator])]
  refine (parses n e hsize Power.statement resultRegister c _ ⟨.finish, finish⟩ [] hfits hstops
    (Nat.zero_le _)).finish ?_
  rw [if_neg (e.result_ne_done _ _ _)]
  exact takes_next.andThen takes_pushBack

theorem takes_scriptBody {n fuel : Nat} (hsize : e.size < n) (hfits : e.Fits Power.statement)
    (hstops : e.Stops .finish) :
    Takes s₀ ⟨c, pl, e.first :: (e.rest ++ [⟨.finish, finish⟩])⟩
      (scriptBody (productions (n + 1)) (fuel + 2)) e.fault? ()
      ⟨e.gen s₀.names resultRegister c, some finish, []⟩ := by
  refine takes_next.andThen ?_
  rw [if_neg e.first_ne_finish, if_neg (e.first_ne rfl)]
  refine takes_pushBack.andThen ((takes_statement hsize hfits hstops).finish ?_)
  exact takes_next.andThen (.pure ())

end Compile

/-- A source that is one expression: its code and a return, or the first operator without a
target. -/
theorem compile_expression {source : String} {e : Expr} {finish : Position}
    (hsize : e.size + 2 < compileFuel (Source.normalize source.toList))
    (htokens : (Lexer.ofText (Source.normalize source.toList)).Delivers
      (e.first :: (e.rest ++ [⟨.finish, finish⟩])))
    (hfits : e.Fits Power.statement) (hstops : e.Stops .finish) :
    match e.fault? with
    | none => ∃ root, compile source = .ok root ∧ root.draft =
        (e.gen (CompileState.ofText (Source.normalize source.toList)).names resultRegister
          ⟨#[], #[]⟩).emit finish .ret resultRegister
    | some place => compile source = .error (Compile.notAssignable place) := by
  obtain ⟨n, hn⟩ : ∃ n, compileFuel (Source.normalize source.toList) = n + 2 :=
    ⟨compileFuel (Source.normalize source.toList) - 2, by omega⟩
  rw [hn] at hsize
  set s₀ := CompileState.ofText (Source.normalize source.toList)
  have hat : s₀.At ⟨⟨#[], #[]⟩, none, e.first :: (e.rest ++ [⟨.finish, finish⟩])⟩ s₀ :=
    ⟨htokens, rfl, rfl, rfl, nofun⟩
  have hbody : Compile.Takes s₀ ⟨⟨#[], #[]⟩, none, e.first :: (e.rest ++ [⟨.finish, finish⟩])⟩
      (do
        Compile.scriptBody (Compile.productions (n + 2)) (n + 2)
        Compile.emit .ret resultRegister)
      e.fault? (e.gen s₀.names resultRegister ⟨#[], #[]⟩).size
      ⟨(e.gen s₀.names resultRegister ⟨#[], #[]⟩).emit finish .ret resultRegister, some finish, []⟩ :=
    (Compile.takes_scriptBody (by omega) hfits hstops).finish Compile.takes_emit
  have hscript : Compile.script (Compile.productions (n + 2)) = (do
      let _ ← (do
        Compile.scriptBody (Compile.productions (n + 2)) (n + 2)
        Compile.emit .ret resultRegister)
      return (← get).current.chunk) := by
    simp only [Compile.script, bind_assoc]
    rfl
  have hrun := hbody s₀ hat
  rcases hfault : e.fault? with _ | place <;> rw [hfault] at hrun
  · obtain ⟨s', hs', hat'⟩ := hrun
    have hcompiled : Compile.script (Compile.productions (n + 2)) s₀ = .ok s'.current.chunk s' := by
      rw [hscript, Compile.bind_apply, hs']
      rfl
    exact ⟨s'.current.chunk, compile_of_ok (by rw [hn]; exact hcompiled), hat'.draft⟩
  · obtain ⟨s', hs'⟩ := hrun
    have hfailed : Compile.script (Compile.productions (n + 2)) s₀ =
        .error (Compile.notAssignable place) s' := by
      rw [hscript, Compile.bind_apply, hs']
    exact compile_of_error (by rw [hn]; exact hfailed)

/-! ## Frames -/

/-- A new frame sits on the engine that it was made on. -/
theorem sits_newFrame {c : Chunk} (hc : c.Compiled) {e : Engine} (he : e.Intact) (scope : ScopeRef)
    (receiver : Value) (args : Array Value) :
    ∃ f e', newFrame c scope receiver args e = .ok f e' ∧ f.chunk = c ∧ f.Proper none ∧
      f.Sits e' := by
  obtain ⟨hallow, -⟩ := tame_newFrame hc scope receiver args e he trivial
  let w : WindowRef := ⟨e.heap.windows.size⟩
  let h₁ := (e.heap.newWindow (c.initialWindow receiver args)).2
  let h₂ := (h₁.newScope (.activation scope w ∅ ∅)).2
  let f : Frame := ⟨c, w, ⟨h₁.scopes.size⟩, c.base⟩
  let e' : Engine := { e with heap := h₂.setCell ⟨w, c.base⟩ (.scope ⟨h₁.scopes.size⟩) }
  have hnew : newFrame c scope receiver args e = .ok f e' := rfl
  rw [hnew] at hallow
  obtain ⟨hproper, hready⟩ := hallow.result f e' rfl
  have hg := hallow.guarded
  refine ⟨f, e', hnew, rfl, hproper, ⟨⟨hg.functions, hg.properties, ?_, ?_⟩, hready.live⟩⟩
  · intro s name cell hcell
    refine ⟨(hg.cells s name cell hcell).1, ?_⟩
    -- The only new scope has no names, and the old ones do not know of the new window.
    have hscope : e'.heap.scope s = if s.index = h₁.scopes.size then .activation scope w ∅ ∅
        else h₁.scope s := Heap.scope_newScope _ s
    rw [hscope] at hcell
    split at hcell
    · rw [register?_activation_empty] at hcell
      cases hcell
    · have hold := Heap.lt_of_cell (he.cells s name cell hcell).1
      rintro _ ⟨⟩ hw
      rw [show cell.window = w from hw] at hold
      exact absurd hold (lt_irrefl _)
  · rintro _ ⟨⟩
    show e.heap.windows.size < e'.heap.windows.size
    simp [e', h₂, h₁, Heap.setCell, Heap.newScope, Heap.newWindow]

end ScriptEngine
