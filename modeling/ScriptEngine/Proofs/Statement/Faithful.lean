import ScriptEngine.Proofs.Precedence.Redundant
import ScriptEngine.Proofs.Reading.Stream
import ScriptEngine.Proofs.Statement.Follows
import ScriptEngine.Proofs.Statement.Parse

/-!
# Control flow is compiled faithfully

The statements of a script or a function are compiled to code that does what they mean: a frame
that runs it starts the code of the same expressions in the same order and on the same engines, and
ends in the same way (`control_flow_is_faithful`). A `break` or `continue` without a loop around it
in its function is refused.

What the expressions are is left open: they are phrases that the compiler reads as expressions, and
they do what their code does. All expressions over names, numbers and operators are such phrases
(`Shape.reads`).
-/

namespace ScriptEngine

/-! ## Expressions as phrases -/

theorem Lexer.Shows.delivers {l : Lexer} {kinds : List Token.Kind} (h : l.Shows kinds) :
    ∃ ts : List Token, ts.map Token.kind = kinds ∧ l.Delivers ts := by
  induction kinds generalizing l with
  | nil => exact ⟨[], rfl, trivial⟩
  | cons kind kinds ih =>
    obtain ⟨t, l', hnext, rfl, hshows⟩ := h
    obtain ⟨ts, rfl, hts⟩ := ih hshows
    exact ⟨t :: ts, rfl, l', hnext, hts⟩

theorem Lexer.Delivers.shows {l : Lexer} {ts : List Token} (h : l.Delivers ts) :
    l.Shows (ts.map Token.kind) := by
  induction ts generalizing l with
  | nil => trivial
  | cons t ts ih =>
    obtain ⟨l', hnext, hts⟩ := h
    exact ⟨t, l', hnext, rfl, ih hts⟩

theorem kind_placed (ps : Nat → Position) (ws : List Lexeme) (n : Nat) :
    (placed ps ws n).map Token.kind = ws.map Lexeme.kind := by
  induction ws generalizing n with
  | nil => rfl
  | cons w ws ih => simp only [placed, List.map_cons, ih]

theorem Token.Kind.ne_finish_of_isOperator {kind : Token.Kind} (h : kind.isOperator = true) :
    .finish ≠ kind := by
  rintro rfl
  cases h

theorem StepOp.isOperator_kind (op : StepOp) : op.kind.isOperator = true := by
  cases op <;> rfl

theorem LogicOp.isOperator_kind (op : LogicOp) : op.kind.isOperator = true := by
  cases op <;> rfl

theorem Conversion.isOperator_kind (word : Conversion) : word.kind.isOperator = true := by
  cases word <;> rfl

open Token.Kind in
mutual

/-- No lexeme of an expression is the end of the source. -/
theorem Shape.finish_notMem : (s : Shape) → .finish ∉ s.words.map Lexeme.kind
  | .name x | .numeral x => by simp [Shape.words, Word.lexeme, Numeral.lexeme]
  | .paren s => by simpa [Shape.words, Lexeme.ofKind] using s.finish_notMem
  | .cast word s => by
    simpa [Shape.words, Lexeme.ofKind, ne_finish_of_isOperator word.isOperator_kind] using s.finish_notMem
  | .unary op s => by
    simpa [Shape.words, Lexeme.ofKind, ne_finish_of_isOperator op.isOperator_kind] using s.finish_notMem
  | .stepBefore op s => by
    simpa [Shape.words, Lexeme.ofKind, ne_finish_of_isOperator op.isOperator_kind] using s.finish_notMem
  | .delete s => by simpa [Shape.words, Lexeme.ofKind] using s.finish_notMem
  | .binary l op r => by
    have hl := l.finish_notMem
    have hr := r.finish_notMem
    simp_all [Shape.words, Lexeme.ofKind, ne_finish_of_isOperator op.isOperator_kind]
  | .logic l op r => by
    have hl := l.finish_notMem
    have hr := r.finish_notMem
    simp_all [Shape.words, Lexeme.ofKind, ne_finish_of_isOperator op.isOperator_kind]
  | .comma l r => by
    have hl := l.finish_notMem
    have hr := r.finish_notMem
    simp_all [Shape.words, Lexeme.ofKind]
  | .ternary c a b => by
    have hc := c.finish_notMem
    have ha := a.finish_notMem
    have hb := b.finish_notMem
    simp_all [Shape.words, Lexeme.ofKind]
  | .assign l op r => by
    have hl := l.finish_notMem
    have hr := r.finish_notMem
    simp_all [Shape.words, Lexeme.ofKind, ne_finish_of_isOperator op.isOperator_kind]
  | .stepAfter s op => by
    have hs := s.finish_notMem
    simp_all [Shape.words, Lexeme.ofKind, ne_finish_of_isOperator op.isOperator_kind]
  | .dot s x => by
    have hs := s.finish_notMem
    simp_all [Shape.words, Lexeme.ofKind, Word.lexeme]
  | .index s key => by
    have hs := s.finish_notMem
    have hkey := key.finish_notMem
    simp_all [Shape.words, Lexeme.ofKind]
  | .invoke s => by
    have hs := s.finish_notMem
    simp_all [Shape.words, Lexeme.ofKind]
  | .call s args => by
    have hs := s.finish_notMem
    have hargs := args.finish_notMem
    simp_all [Shape.words, Lexeme.ofKind]

theorem Args.finish_notMem : (args : Args) → .finish ∉ args.words.map Lexeme.kind
  | .last s => s.finish_notMem
  | .more s args => by
    have hs := s.finish_notMem
    have hargs := args.finish_notMem
    simp_all [Args.words, Lexeme.ofKind]

end


theorem Expr.startsStatement_first (e : Expr) : e.first.kind.startsStatement = false := by
  fun_induction first e
  case case3 _ b => cases b <;> rfl
  case case9 op _ _ => rcases op with _ | _ | _ | _ | _ | _ | _ | (_ | _ | _) <;> rfl
  case case23 op _ _ => cases op <;> rfl
  all_goals first | assumption | rfl

/-- The kinds of the tokens of a tree are those of the lexemes it was read from. -/
theorem Shape.kinds_toExpr (s : Shape) (ps : Nat → Position) (n : Nat) :
    (s.toExpr ps n).first.kind :: (s.toExpr ps n).rest.map Token.kind = s.words.map Lexeme.kind := by
  rw [← kind_placed ps s.words n, ← s.tokens_toExpr, List.map_cons]

/-- An expression as a phrase. -/
def Shape.phrase (s : Shape) : Phrase where
  first := (s.toExpr (fun _ => ⟨1, 1⟩) 0).first.kind
  rest := (s.toExpr (fun _ => ⟨1, 1⟩) 0).rest.map Token.kind
  opens := by
    set e := s.toExpr (fun _ => ⟨1, 1⟩) 0
    refine ⟨fun h => ?_, ?_, e.first_ne rfl⟩
    · rw [e.startsStatement_first] at h
      cases h
    · have hsemicolon : e.first.kind ≠ .mark .semicolon := e.first_ne rfl
      have hbrace : e.first.kind ≠ .mark .rBrace := e.first_ne rfl
      simp [Compile.isTerminator, hsemicolon, hbrace, e.first_ne_finish]
  inside := by
    intro h
    exact s.finish_notMem (s.kinds_toExpr (fun _ => ⟨1, 1⟩) 0 ▸ List.mem_cons_of_mem _ h)

theorem Shape.kinds_phrase (s : Shape) : s.phrase.kinds = s.words.map Lexeme.kind :=
  s.kinds_toExpr _ 0

/-- Whether all operators of an expression that need a target have one. -/
def Shape.targeted (s : Shape) : Bool :=
  (s.toExpr (fun _ => ⟨1, 1⟩) 0).fault?.isNone

theorem Shape.fault?_toExpr {s : Shape} (h : s.targeted = true) (ps : Nat → Position) :
    (s.toExpr ps 0).fault? = none := by
  have halike := (s.alike .script ps ps 0 0).fault.trans
    (s.alike .script (fun _ => ⟨1, 1⟩) ps 0 0).fault.symm
  rw [targeted, Option.isNone_iff_eq_none] at h
  rwa [h, Option.isSome_none, Option.isSome_eq_false_iff, Option.isNone_iff_eq_none] at halike

/-- The compiler reads an expression wherever it stands. -/
theorem Shape.reads {s : Shape} {power : Nat} (hfits : s.fits power = true)
    (htargeted : s.targeted = true) : s.phrase.Reads power := by
  intro n state t behind kinds hn ht hshows hbehind
  obtain ⟨us, hus, hdelivers⟩ := hshows.delivers
  obtain ⟨ts, us, rfl, hts, hbehinds⟩ := List.map_eq_append_iff.1 hus
  obtain ⟨u, us, rfl, hu, hkinds⟩ := List.map_eq_cons_iff.1 hbehinds
  -- The tokens of the phrase are at some places, and the tree of these is read.
  have hwords : (t :: ts).map Token.kind = s.words.map Lexeme.kind := by
    rw [List.map_cons, ht, hts]
    exact s.kinds_phrase
  obtain ⟨ps, hps⟩ := exists_placed 0 hwords
  obtain ⟨hfirst, hrest⟩ := List.cons.inj ((s.tokens_toExpr ps 0).trans hps)
  have hsize : (s.toExpr ps 0).size < n := by
    rw [Phrase.kinds, List.length_cons, ← hts, List.length_map] at hn
    rwa [Expr.size, hrest]
  have hpower : u.kind.leftPower = 0 := by
    rw [hu]
    rcases hbehind with hend | ⟨-, rfl⟩
    · exact Compile.leftPower_of_terminator hend
    · rfl
  have hparses : Compile.Parses state (Compile.productions n) (s.toExpr ps 0) :=
    Compile.parses n _ hsize
  have htakes := hparses power resultRegister state.current.chunk.draft none u us
    (s.fits_toExpr 0 power hfits) (s.stops_toExpr 0 (stops_of_leftPower _ hpower s))
    (hpower ▸ Nat.zero_le power) state
      ⟨by rwa [hrest], rfl, rfl, rfl, fun _ h => absurd h (Option.not_mem_none _)⟩
  rw [Shape.fault?_toExpr htargeted] at htakes
  obtain ⟨state', hreads, hat⟩ := htakes
  rw [hfirst] at hreads
  refine ⟨_, state', hreads, Expr.result_ne_done _ _ _ _, ?_⟩
  have hshows' := hat.lexer.shows
  rwa [List.map_cons, hu, hkinds] at hshows'

/-! ## Sources -/

theorem Lexer.Shows.length_le {l : Lexer} {kinds more : List Token.Kind}
    (h : l.Shows (kinds ++ more)) (hpushed : l.pushed = none) (hkinds : .finish ∉ kinds) :
    kinds.length ≤ l.rest.length := by
  induction kinds generalizing l with
  | nil => exact Nat.zero_le _
  | cons kind kinds ih =>
    obtain ⟨t, l', hnext, rfl, hshows⟩ := h
    have hrest := ih hshows (pushed_next hnext) fun hmem => hkinds (.tail _ hmem)
    have hlt := fetch_shortens (next_eq_fetch hpushed ▸ hnext) fun hfinish => hkinds (hfinish ▸ .head _)
    rw [List.length_cons]
    omega

/-! ## Bodies -/

/-- A run of a frame from an index on is what a walk says: while the same pieces are started, the
frame leaves with the value, fails in the same way, or, if the walk was cut off, is not done after
`n` turns. -/
def Watch.Agrees (x : Watch) (n start : Nat) (e : Engine) :
    List (Piece × Engine) × Course Value → Prop
  | (trace, .done v e') => ∃ k, x.after k (.at start e) = (trace, .left v e') ∧
      x.frame.run x.call k start e = .ok v e'
  | (trace, .failed failure e') => ∃ k, x.after k (.at start e) = (trace, .failed failure e') ∧
      x.frame.run x.call k start e = .error failure e'
  | (trace, .cut) => ∃ k pc e', n ≤ k ∧ x.after k (.at start e) = (trace, .at pc e') ∧
      x.frame.run x.call k start e = .error .exhausted e'

/-- The code of a chunk from an index on does what statements mean: their expressions are pieces of
it, and every run of it is what the plan of these pieces says. -/
def Chunk.Performs (c : Chunk) (start : Nat) (ts : Stmts Phrase) : Prop :=
  ∃ plan : Stmts Piece, plan.map Piece.phrase = ts ∧
    (∀ p ∈ plan.leaves, p.phrase.Makes c.code p.start p.stop) ∧
      ∀ (x : Watch) (n : Nat) (e : Engine), x.frame.chunk = c → x.pieces = plan.leaves → x.Proper →
        x.frame.Sound (.at start e) → x.Agrees n start e (plan.run x.world n e)

theorem Watch.Follows.agrees {x : Watch} {n start : Nat} {m : Walk Piece Value}
    (h : x.Follows n (.at start) m (fun _ => 0) .left) {e : Engine}
    (he : x.frame.Sound (.at start e)) : x.Agrees n start e (m e) := by
  have hm := h e he
  rcases hme : m e with ⟨trace, ⟨v, e'⟩ | ⟨failure, e'⟩ | _⟩ <;> rw [hme] at hm
  · obtain ⟨k, -, hafter⟩ := hm
    exact ⟨k, hafter, by rw [x.run_eq, hafter]; rfl⟩
  · obtain ⟨k, hafter⟩ := hm
    exact ⟨k, hafter, by rw [x.run_eq, hafter]; rfl⟩
  · obtain ⟨k, pc, e', hk, hafter⟩ := hm
    exact ⟨k, pc, e', hk, hafter, by rw [x.run_eq, hafter]; rfl⟩

/-- The code of statements outside of all loops, with a return of the result behind it. -/
theorem Stmts.Drawn.performs {ts : Stmts Phrase} {f f' : FunctionState} (h : ts.Drawn f f')
    (hloops : f.loops = []) (place : Position) :
    (f'.add ⟨.ret, resultRegister, 0, 0, place⟩).chunk.Performs f.size ts := by
  obtain ⟨plan, bs, cs, hplan, hjots, hsketch⟩ := h
  obtain ⟨rfl, rfl⟩ := hjots.none hloops
  set g := f'.add ⟨.ret, resultRegister, 0, 0, place⟩
  -- No jump is open any more, so those out of a loop may as well go to the return.
  have hlaid : plan.Laid g.chunk.code f'.size f'.size f.size f'.size :=
    hsketch.laid g.chunk.code (fun _ => 0) ⟨by simp, fun n _ hn _ => f'.getElem?_add_of_lt _ hn⟩ _ _
      (by simp) (by simp)
  refine ⟨plan, hplan, hlaid.spans.made, fun x n e hchunk hpieces hx he => ?_⟩
  rw [← hchunk] at hlaid
  have hret : x.frame.chunk.code[f'.size]? = some ⟨.ret, resultRegister, 0, 0, place⟩ := by
    rw [hchunk]
    exact f'.getElem?_add _
  have hcovers : x.Covers plan.leaves f.size (f'.size + 1) := fun n _ _ => by rw [Watch.marks, hpieces]
  obtain ⟨hcovers, hquiet⟩ := Watch.Covers.init hcovers hlaid.spans
  have hlast : x.Follows n (.at f'.size) x.world.last (fun _ => 0) .left :=
    fun e he => ⟨1, Nat.zero_le _, Watch.after_ret hx hret hquiet he⟩
  refine Watch.Follows.agrees ((Stmts.follows hx n plan hlaid hcovers).andThen hx fun signal => ?_) he
  cases signal with
  | left v => exact .pure rfl rfl
  | _ => exact hlast

namespace Compile

variable {s : CompileState} {kinds : List Token.Kind} {f : FunctionState} {ts : Stmts Phrase} {n : Nat}

/-- A body with the return of its result. -/
theorem ends_body {last : Token.Kind} {m : Nat → Compile Unit} (hm : ReadsBody n last m)
    (hfits : ts.Fits last) (hn : ts.kinds.length + 2 ≤ n) (hloops : f.loops = [])
    (hs : s.Sees (ts.kinds ++ last :: kinds) f) :
    Ends (do m n; let _ ← emit .ret resultRegister) s ts.loose fun _ s' =>
      s'.lexer.Shows kinds ∧ s'.current.chunk.Performs f.size ts := by
  have hfault : f.fault? ts.loose = ts.loose := by simp [FunctionState.fault?, hloops]
  have hbody := Stmts.reads ts n n hm hfits hn (by omega) hs
  rw [hfault] at hbody
  refine hbody.finish fun _ s₁ hread => ?_
  obtain ⟨f', hs₁, hdrawn⟩ := hread
  refine (ends_emit hs₁ _ _ _ _).andThen fun _ s₂ hret => ?_
  obtain ⟨_, place, hs₂⟩ := hret
  refine .pure ⟨hs₂.lexer, ?_⟩
  rw [hs₂.current]
  exact hdrawn.performs hloops place

/-- The parameters are declared by one instruction each. -/
theorem ends_registerParameters (register : Int) (params : List String) (hs : s.Sees kinds f) :
    Ends (registerParameters register params) s none fun _ s' =>
      ∃ f', s'.Sees kinds f' ∧ f'.loops = f.loops ∧ f'.size = f.size + params.length := by
  induction params generalizing register s f with
  | nil => exact .pure ⟨f, hs, rfl, rfl⟩
  | cons param params ih =>
    obtain ⟨hlexer, rfl⟩ := hs
    have hname : Ends (name param) s none fun _ s' => ∃ f', s'.Sees kinds f' ∧
        f'.loops = s.current.loops ∧ f'.size = s.current.size := by
      refine ⟨_, _, constant_apply _ s, _, ⟨hlexer, rfl⟩, ?_⟩
      obtain ⟨hcode, hloops⟩ := quiet_constant _ s _ _ (constant_apply (.value (.str param)) s)
      exact ⟨hloops, congrArg Array.size hcode⟩
    refine hname.andThen fun k s₁ ⟨f₁, hs₁, hloops₁, hsize₁⟩ => ?_
    refine (ends_emit hs₁ _ _ _ _).andThen fun _ s₂ ⟨_, place, hs₂⟩ => ?_
    refine (ih (register - 1) hs₂).mono fun _ s₃ ⟨f₃, hs₃, hloops₃, hsize₃⟩ => ?_
    refine ⟨f₃, hs₃, hloops₃.trans hloops₁, ?_⟩
    rw [hsize₃, FunctionState.size_add, hsize₁, List.length_cons]
    omega

/-- A script. -/
theorem ends_script (hfits : ts.Fits .finish) (hn : ts.kinds.length + 2 ≤ n) (hloops : f.loops = [])
    (hsize : f.size = 0) (hs : s.Sees (ts.kinds ++ [.finish]) f) :
    Ends (script (productions n)) s ts.loose fun c _ => c.Performs 0 ts := by
  have hscript : script (productions n) = (do
      let _ ← (do scriptBody (productions n) n; let _ ← emit .ret resultRegister)
      return (← get).current.chunk) := by
    simp only [script, bind_assoc, pure_bind]
    rfl
  rw [hscript]
  refine (ends_body (readsBody_script n) hfits hn hloops hs).finish fun _ s₁ hbody => ?_
  obtain ⟨-, hperforms⟩ := hbody
  rw [hsize] at hperforms
  exact ⟨_, s₁, rfl, hperforms⟩

/-- A function starts without code, outside of all loops. -/
theorem loops_function (named : Option String) (params : List String) :
    (FunctionState.function named params).loops = [] ∧
      (FunctionState.function named params).size = 0 := by
  have hdeclare : ∀ f : FunctionState, ∀ param,
      (f.declare param).1.loops = f.loops ∧ (f.declare param).1.size = f.size := by
    intro f param
    unfold FunctionState.declare
    split
    split <;> exact ⟨rfl, rfl⟩
  have hfold : ∀ f : FunctionState,
      (params.foldl (fun f param => (f.declare param).1) f).loops = f.loops ∧
        (params.foldl (fun f param => (f.declare param).1) f).size = f.size := by
    induction params with
    | nil => exact fun f => ⟨rfl, rfl⟩
    | cons param params ih =>
      intro f
      rw [List.foldl_cons, (ih _).1, (ih _).2]
      exact hdeclare f param
  exact hfold _

theorem ends_leaveFunction (s : CompileState) : Ends leaveFunction s none fun c s' =>
    c = s.current.chunk ∧ s'.lexer = s.lexer := by
  rcases h : s.enclosing with _ | ⟨outer, enclosing⟩
  · exact ⟨s.current.chunk, _, leaveFunction_nil h, rfl, rfl⟩
  · exact ⟨s.current.chunk, _, leaveFunction_cons h, rfl, rfl⟩

/-- The code of a function, whatever loops there are around it. -/
theorem ends_functionChunk (named : Option String) (params : List String)
    (hfits : ts.Fits (.mark .rBrace)) (hn : ts.kinds.length + 2 ≤ n)
    (hs : s.lexer.Shows (.mark .lBrace :: (ts.kinds ++ .mark .rBrace :: kinds))) :
    Ends (functionChunk (productions n) named params) s ts.loose fun c s' =>
      s'.lexer.Shows kinds ∧ c.Performs params.length ts := by
  obtain ⟨hloops, hsize⟩ := loops_function named params
  have henter : Ends (enterFunction (.function named params)) s none fun _ s' =>
      s'.Sees (.mark .lBrace :: (ts.kinds ++ .mark .rBrace :: kinds)) (.function named params) :=
    ⟨(), _, rfl, hs, rfl⟩
  refine henter.andThen fun _ s₁ hs₁ => ?_
  have hbody : Ends (functionBody (productions n) params) s₁ ts.loose fun _ s' =>
      s'.lexer.Shows kinds ∧ s'.current.chunk.Performs params.length ts := by
    refine (ends_registerParameters (-1) params hs₁).andThen fun _ s₂ ⟨f', hs₂, hloops', hsize'⟩ => ?_
    refine (ends_expect hs₂).andThen fun _ s₃ hs₃ => ?_
    have h := ends_body (readsBody_block n) hfits hn (hloops'.trans hloops) hs₃
    rw [hsize', hsize, Nat.zero_add] at h
    exact h
  refine hbody.finish fun _ s₂ ⟨hshows, hperforms⟩ => ?_
  exact (ends_leaveFunction s₂).mono fun c s₃ ⟨hc, hlexer⟩ => ⟨hlexer ▸ hshows, hc ▸ hperforms⟩

end Compile

/-! ## Faithfulness -/

/-- Control flow is compiled faithfully, in scripts and in functions. If all of their `break` and
`continue` statements are in loops of their own, the code does what the statements mean; otherwise
the first one that is not in a loop is refused, whatever loops there are around the function. -/
theorem control_flow_is_faithful (ts : Stmts Phrase) :
    (∀ source : String, ts.Fits .finish →
      (Lexer.ofText (Source.normalize source.toList)).Shows (ts.kinds ++ [.finish]) →
        match ts.loose with
        | none => ∃ root, compile source = .ok root ∧ root.Performs 0 ts
        | some word => ∃ place, compile source = .error (.error (.grammar (.outsideLoop word) place))) ∧
    ∀ (n : Nat) (s : CompileState) (named : Option String) (params : List String)
      (kinds : List Token.Kind), ts.Fits (.mark .rBrace) → ts.kinds.length + 2 ≤ n →
      s.lexer.Shows (.mark .lBrace :: (ts.kinds ++ .mark .rBrace :: kinds)) →
        match ts.loose with
        | none => ∃ c s', Compile.functionChunk (Compile.productions n) named params s = .ok c s' ∧
            s'.lexer.Shows kinds ∧ c.Performs params.length ts
        | some word => ∃ place s', Compile.functionChunk (Compile.productions n) named params s =
            .error (.error (.grammar (.outsideLoop word) place)) s' := by
  refine ⟨fun source hfits hshows => ?_, fun n s named params kinds hfits hn hs => ?_⟩
  · have hlength := hshows.length_le rfl ts.finish_notMem
    have hends := Compile.ends_script (n := compileFuel (Source.normalize source.toList)) hfits
      (by rw [compileFuel]; change _ ≤ (Source.normalize source.toList).length at hlength; omega) rfl rfl
      (s := CompileState.ofText (Source.normalize source.toList)) ⟨hshows, rfl⟩
    rcases hloose : ts.loose with _ | word <;> rw [hloose] at hends
    · obtain ⟨c, s', hscript, hperforms⟩ := hends
      exact ⟨c, compile_of_ok hscript, hperforms⟩
    · obtain ⟨place, s', hscript⟩ := hends
      exact ⟨place, compile_of_error hscript⟩
  · have hends := Compile.ends_functionChunk named params hfits hn hs
    rcases hloose : ts.loose with _ | word <;> rw [hloose] at hends <;> exact hends

theorem longest_counter : longest ['i'] = some (.word, ['i'].length) := by decide +kernel

theorem free_counter : Keyword.ofSpelling? (String.ofList ['i']) = none := by decide +kernel

/-- The name `i` as an expression. -/
def counterShape : Shape :=
  .name ⟨⟨['i'], longest_counter⟩, free_counter⟩

/-- The statements `for ( i = 3 ; i ; ) { if ( i -- ) continue ; else while ( i ) break ; }` and
`return i ;`. -/
def nestedLoops : Stmts Phrase :=
  let i := counterShape
  let start : Shape :=
    .assign i .plain (.numeral ⟨['3'], .ofNat 3, by decide +kernel, by decide +kernel⟩)
  let choice : Stmt Phrase := .ifElse (Shape.stepAfter i .dec).phrase (.leave .continues true)
    (.whileLoop i.phrase (.leave .breaks true))
  .cons (.forLoop start.phrase i.phrase none (.block (.cons choice .nil)))
    (.cons (.ret i.phrase true) .nil)

/-- A `break` in a condition but not in a loop. -/
def looseBreak : Stmts Phrase :=
  .cons (.ifThen counterShape.phrase (.leave .breaks true)) .nil

/-- Two loops in a script, and a function with a `break` outside of all loops. -/
theorem control_flow_is_faithful_nested :
    (∃ root, compile
        "for (i = 3; i; ) \x7b if (i--) continue; else while (i) break; \x7d return i;" = .ok root ∧
      root.Performs 0 nestedLoops) ∧
    ∃ place s', Compile.functionChunk (Compile.productions 20) none []
      (.ofText "\x7b if (i) break; \x7d".toList) =
        .error (.error (.grammar (.outsideLoop .breakWord) place)) s' := by
  have hi : ∀ power, counterShape.phrase.Reads power := fun power => Shape.reads rfl (by decide +kernel)
  refine ⟨(control_flow_is_faithful nestedLoops).1 _ ?_ (by decide +kernel),
    (control_flow_is_faithful looseBreak).2 20 _ none [] [.finish] ?_ (by decide +kernel)
      (by decide +kernel)⟩
  · refine ⟨⟨?_, ?_, nofun, ⟨⟨?_, trivial, rfl, hi _, trivial⟩, nofun, rfl, trivial⟩⟩, nofun, rfl, ?_⟩
    · rintro e ⟨⟩
      exact Shape.reads (by decide +kernel) (by decide +kernel)
    · rintro e ⟨⟩
      exact hi _
    · exact Shape.reads (by decide +kernel) (by decide +kernel)
    · refine ⟨?_, nofun, rfl, trivial⟩
      rintro e ⟨⟩
      exact hi _
  · exact ⟨⟨hi _, trivial⟩, nofun, rfl, trivial⟩

end ScriptEngine
