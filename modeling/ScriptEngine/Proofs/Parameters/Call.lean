import ScriptEngine.Proofs.Declared
import ScriptEngine.Proofs.Depth.Later
import ScriptEngine.Proofs.Parameters.Defaults
import ScriptEngine.Proofs.Parameters.Origin

/-!
# What a function finds in its parameters

A call places the arguments, and the values of defaults where arguments are missing, into the
registers below zero of the window of a new frame. The chunk of the function begins by declaring
its parameters to the activation, each of them in its register (`Frame.crosses_parameters`). The
frame is then in front of the body.

Main statement: `parameters_are_passed`, for every host of which the functions and constructors
stay calm and are composed.
-/

namespace ScriptEngine

/-! ## Declarations -/

namespace Frame

/-- The declarations of parameters from an index on: names and their registers. -/
def declarations (f : Frame) : Nat → List String → List (String × Nat)
  | _, [] => []
  | i, name :: names => (name, (f.cell (-(i + 1))).index) :: declarations f (i + 1) names

variable {f : Frame} {call : Invoke} {e : Engine} {names : List String} {name : String} {i n : Nat}

theorem latest?_eq_none (h : name ∉ names) : Heap.latest? name (f.declarations i names) = none := by
  induction names generalizing i with
  | nil => rfl
  | cons first names ih =>
    rw [declarations, Heap.latest?, ih fun hmem => h (List.mem_cons_of_mem _ hmem), Option.none_or,
      if_neg fun heq : first = name => h (heq ▸ List.mem_cons_self)]

/-- A parameter is declared in its register. -/
theorem latest?_declarations (hnames : names.Nodup) (hn : names[n]? = some name) :
    Heap.latest? name (f.declarations i names) = some (f.cell (-((i + n : Nat) + 1))).index := by
  induction names generalizing i n with
  | nil => cases hn
  | cons first names ih =>
    obtain ⟨hnot, hnames⟩ := List.nodup_cons.1 hnames
    rw [declarations, Heap.latest?]
    cases n with
    | zero =>
      cases hn
      rw [latest?_eq_none hnot, Option.none_or, if_pos rfl, Nat.add_zero]
    | succ n =>
      rw [ih hnames hn, Option.some_or, Nat.add_right_comm, Nat.add_assoc]

end Frame

theorem Heap.cell?_declareAll (h : Heap) (s : ScopeRef) (declarations : List (String × Nat))
    (c : Cell) : (h.declareAll s declarations).cell? c = h.cell? c := by
  induction declarations generalizing h with
  | nil => rfl
  | cons d declarations ih => exact ih _

namespace Frame

variable {f : Frame} {call : Invoke} {e : Engine} {names : List String} {i : Nat}

/-- The instructions that declare parameters. -/
theorem crosses_declarations (hf : f.Proper none) (hcall : call.Calm f.temps) (he : f.Sits e)
    (hcode : ∀ (n : Nat) name, names[n]? = some name → ∃ k place,
      f.chunk.nameAt? k = some name ∧
        f.chunk.code[i + n]? = some ⟨.registerLocal, -((i + n : Nat) + 1), k, 0, place⟩) :
    f.Crosses call names.length i e (i + names.length)
      { e with heap := e.heap.declareAll f.activation (f.declarations i names) } := by
  induction names generalizing i e with
  | nil => exact .stay i e
  | cons name names ih =>
    obtain ⟨k, place, hk, hi⟩ := hcode 0 name rfl
    rw [Nat.add_zero] at hi
    have hhas : f.Has (-((i : Int) + 1)) := (has_of_fits (hf.wellFormed.fits i _ hi)).1 rfl
    have hstep : f.step call ⟨.registerLocal, -((i : Int) + 1), k, 0, place⟩ e = .ok .next
        { e with heap := e.heap.registerLocal f.activation name (f.cell (-(i + 1))).index } := by
      refine step_of_perform rfl ?_
      show (f.name k >>= fun name => f.slot (-((i : Int) + 1)) >>= fun index =>
        Script.modifyHeap (·.registerLocal f.activation name index)) e = _
      rw [name_eq hk, pure_bind, Script.bind_apply, he.live.slot hf hhas]
      rfl
    have hrest := ih (i := i + 1) (sits_step hf hcall (hf.wellFormed.fits i _ hi) he hstep)
      fun n name hn => by
        have hnext := hcode (n + 1) name hn
        rwa [← Nat.add_assoc, Nat.add_right_comm] at hnext
    rw [List.length_cons, ← Nat.add_assoc, Nat.add_right_comm]
    exact .step hi hstep rfl (Nat.lt_succ_self i) hrest

end Frame

/-! ## New frames -/

section NewFrame

variable {c : Chunk} {scope : ScopeRef} {receiver : Value} {values : Array Value} {e e₁ : Engine}
  {f : Frame} {names : List String} {name : String} {i : Nat}

/-- The scopes behind the start of a frame. -/
theorem scope_newFrame (h : newFrame c scope receiver values e = .ok f e₁) (s : ScopeRef) :
    e₁.heap.scope s = if s.index = e.heap.scopes.size then .activation scope f.window ∅ ∅
      else e.heap.scope s := by
  cases h
  exact Heap.scope_newScope _ s

theorem activation_newFrame (h : newFrame c scope receiver values e = .ok f e₁) :
    f.activation.index = e.heap.scopes.size ∧ f.window.index = e.heap.windows.size ∧
      e₁.heap.windows.size = e.heap.windows.size + 1 := by
  cases h
  refine ⟨rfl, rfl, ?_⟩
  show ((e.heap.windows.push _).modify _ _).size = _
  rw [Array.size_modify, Array.size_push]

/-- A frame in front of the body of a function: its parameters are declared in their registers,
which hold the arguments, and the defaults where arguments are missing. -/
structure Frame.Took (f : Frame) (names : List String) (args : Array Value) (defaults : List Value)
    (e : Engine) : Prop where
  supplied : ∀ (i : Nat) v, i < names.length → args[i]? = some v → f.contents e (-(i + 1)) = v
  missing : ∀ i : Nat, i < names.length → args[i]? = none →
    f.contents e (-(i + 1)) = (defaults[i]?).getD .void
  declared : ∀ (i : Nat) name, names[i]? = some name →
    e.heap.localCell? name f.activation = some (f.cell (-(i + 1))) ∧
      e.heap.StoredIn f.activation name (f.cell (-(i + 1)))

/-- The value of a parameter. -/
theorem Function.getElem?_parameters (g : Function) {count : Nat} (hi : i < count)
    (args : Array Value) :
    (g.parameters count args)[i]? = some ((args[i]?.or g.defaults[i]?).getD .void) := by
  simp [parameters, hi]

/-- A new frame declares its parameters and is in front of the body. -/
theorem crosses_parameters {call : Invoke} (hc : c.Compiled) (he : e.Intact)
    (htakes : c.Takes names) (hnames : names.Nodup)
    (h : newFrame c scope receiver values e = .ok f e₁) (hcall : call.Calm f.temps) :
    ∃ e₂, f.Crosses call names.length 0 e₁ names.length e₂ ∧
      (∀ (i : Nat) v, i < names.length → values[i]? = some v → f.contents e₂ (-(i + 1)) = v) ∧
      ∀ (i : Nat) name, names[i]? = some name →
        e₂.heap.localCell? name f.activation = some (f.cell (-(i + 1))) := by
  obtain ⟨f', e', h', hchunk, hproper, hsits⟩ := sits_newFrame hc he scope receiver values
  obtain ⟨rfl, rfl⟩ := EStateM.Result.ok.inj (h'.symm.trans h)
  have hcode : ∀ (n : Nat) name, names[n]? = some name → ∃ k place,
      f'.chunk.nameAt? k = some name ∧
        f'.chunk.code[0 + n]? = some ⟨.registerLocal, -((0 + n : Nat) + 1), k, 0, place⟩ := by
    intro n name hn
    obtain ⟨k, place, hk, hi⟩ := htakes.declares n name hn
    rw [hchunk, Nat.zero_add]
    exact ⟨k, place, hk, hi⟩
  have hcross := Frame.crosses_declarations hproper hcall hsits hcode
  rw [Nat.zero_add] at hcross
  refine ⟨_, hcross, fun i v hi hv => ?_, fun i name hi => ?_⟩
  · have hbase : names.length ≤ c.base := by
      have := htakes.room
      unfold Chunk.base
      omega
    have hvalue := Frame.contents_newFrame_argument h (n := i)
      (lt_min (htakes.params ▸ hi) (Array.getElem?_eq_some_iff.1 hv).1) (hi.trans_le hbase)
    rw [hv] at hvalue
    rw [Option.some.inj hvalue, Frame.contents, Frame.contents]
    exact congrArg (·.getD .void) (Heap.cell?_declareAll _ _ _ _)
  · have hlatest := Frame.latest?_declarations (f := f') (i := 0) hnames hi
    rw [Nat.zero_add] at hlatest
    exact Heap.localCell?_declareAll hsits.live.activation hlatest

/-! ## Functions made in the body -/

/-- A name of a frame means one of its registers also in the functions that are made in the frame,
and in those further inside. -/
structure Frame.Lends (f : Frame) (name : String) (r : Int) (e : Engine) : Prop where
  /-- A call of a function that was made in the frame. -/
  made : ∀ {c : Chunk} {receiver : Value} {values : Array Value} {f' : Frame} {e' : Engine},
    newFrame c f.activation receiver values e = .ok f' e' →
      (e'.heap.captureUpvalue f'.activation name).StoredIn f'.activation name (f.cell r)
  inside : ∀ s, e.heap.Ignores s name → e.heap.owner? s name = some f.activation →
    (e.heap.captureUpvalue s name).StoredIn s name (f.cell r)

theorem lends_of_localCell? {r : Int}
    (h : e.heap.localCell? name f.activation = some (f.cell r)) : f.Lends name r e := by
  refine ⟨fun {c receiver values f' e'} hnew => ?_, fun s hs howner =>
    (hs.captureUpvalue howner h).storedIn⟩
  obtain ⟨hindex, -, -⟩ := activation_newFrame hnew
  have hscope := scope_newFrame hnew
  have hnewest : e'.heap.scope f'.activation = .activation f.activation f'.window ∅ ∅ :=
    (hscope _).trans (if_pos hindex)
  have hlt : f.activation.index < e.heap.scopes.size := by
    by_contra hn
    rw [Heap.localCell?, Heap.scope, Array.getD_eq_getD_getElem?, Array.getElem?_eq_none
      (Nat.not_lt.1 hn)] at h
    cases h
  have hcell : e'.heap.localCell? name f.activation = some (f.cell r) := by
    rw [Heap.localCell?, hscope, if_neg hlt.ne]
    exact h
  have hactivation : e'.heap.isActivation f.activation = true := by
    unfold Heap.localCell? at hcell
    unfold Heap.isActivation
    split at hcell
    · simp only [*]
    · cases hcell
  have hignores : e'.heap.Ignores f'.activation name :=
    ⟨_, _, _, _, hnewest, Std.HashMap.getElem?_empty, Std.HashMap.getElem?_empty⟩
  refine (hignores.captureUpvalue ?_ hcell).storedIn
  -- The frame is the first of those around the new one.
  have hchain : (e'.heap.chain f'.activation).tail = e'.heap.chain f.activation := by
    have hparent : (e'.heap.scope f'.activation).parent? = some f.activation := by rw [hnewest]; rfl
    rw [Heap.chain_of_parent hparent (hindex ▸ hlt), List.tail_cons]
  rw [Heap.owner?, hchain, Heap.chain, List.takeWhile_cons, if_pos hactivation, List.find?_cons,
    hcell]
  rfl

/-! ## Different calls -/

/-- A later frame has other cells. -/
theorem cell_ne_of_newFrame {c' : Chunk} {scope' : ScopeRef} {receiver' : Value}
    {values' : Array Value} {e' e₂ : Engine} {f' : Frame}
    (h : newFrame c scope receiver values e = .ok f e₁) (hx : e₁.heap.Extends e'.heap)
    (h' : newFrame c' scope' receiver' values' e' = .ok f' e₂) (r r' : Int) :
    f.cell r ≠ f'.cell r' := by
  intro hcell
  have hwindow : f.window.index = f'.window.index :=
    congrArg (fun c : Cell => c.window.index) hcell
  obtain ⟨-, hf, hsize⟩ := activation_newFrame h
  obtain ⟨-, hf', -⟩ := activation_newFrame h'
  have := hx.windows
  omega

end NewFrame

/-- A moment after a call has entered a frame: a moment of a call that the frame waits for, or one
after the end of the call. -/
inductive Function.Past (host : Host) (n : Nat) (g : Function) (args : Array Value) (e : Engine)
    (f : Frame) : Engine → Prop where
  | within {pc k : Nat} {i : Instruction} {e₁ e₂ e' : Engine} {h : Function} {inner : Array Value}
      (hframe : g.Executes host n args e f pc e₁) (hi : f.chunk.code[pc]? = some i)
      (hasks : Script.Asks (fun call => f.step call i) (host.call n) e₁ h inner e₂)
      (hinner : h.Reaches host n inner e₂ k e') : Past host n g args e f e'
  | ended {pc : Nat} {e₁ e' : Engine} (hframe : g.Executes host n args e f pc e₁)
      (hx : (Outcome.engine (host.call (n + 1) g args e)).heap.Extends e'.heap) :
      Past host n g args e f e'

/-- What was made for a frame is still there at later moments. -/
theorem Function.Past.later {host : Host} (hhost : host.All Script.StaysCalm)
    (hcomposed : host.All Script.Composed) {n : Nat} {g : Function} {args : Array Value}
    {e e' : Engine} {f : Frame} (h : g.Past host n args e f e') (hg : g.Compiled) (he : e.Intact) :
    ∃ c scope receiver values e₁, newFrame c scope receiver values
      { e with depth := e.depth + 1 } = .ok f e₁ ∧ e₁.heap.Extends e'.heap := by
  cases h with
  | @within pc k i e₁ e₂ _ h inner hframe hi hasks hinner =>
    obtain ⟨chunk, e₀, m, hbody, -, hnew, -, hpasses⟩ := hframe
    obtain ⟨he₀, hproper, hready, -⟩ := newFrame_later (hg chunk hbody)
      (e := { e with depth := e.depth + 1 }) he hnew
    obtain ⟨he₁, hready₁, hx₁⟩ := hpasses.later hproper (Host.calm_call hhost n) he₀ hready
    obtain ⟨hh, he₂, hx₂⟩ := hasks.later (f.composed_step i)
      (fun _ hcall => Frame.tame_step hproper hcall hi) (Host.calm_call hhost n) he₁ hready₁
    exact ⟨_, _, _, _, e₀, hnew, (hx₁.trans hx₂).trans (hinner.later hhost hcomposed hh he₂)⟩
  | @ended pc e₁ _ hframe hx =>
    obtain ⟨chunk, e₀, m, hbody, hroom, hnew, -, -⟩ := hframe
    obtain ⟨he₀, hproper, hready, -⟩ := newFrame_later (hg chunk hbody)
      (e := { e with depth := e.depth + 1 }) he hnew
    refine ⟨_, _, _, _, e₀, hnew, Heap.Extends.trans ?_ hx⟩
    have hrun := (Frame.tame_run hproper (Host.calm_call hhost n) n 0 e₀ he₀ hready).1
    have hleave : ∀ {h : Heap} (c v), h.Guarded none → h.Extends (h.setCell c v) :=
      fun c v hguarded => (Heap.keeps_setCell c v hguarded).2
    rw [Function.call_script host hbody, execute_entered (host.call n) n hroom hnew, Script.andThen]
    rcases hend : f.run (host.call n) n 0 e₀ with ⟨v, e₃⟩ | ⟨x, e₃⟩ <;> rw [hend] at hrun <;>
      exact hrun.extends_.trans (hleave _ _ hrun.guarded)

/-! ## Calls of a literal -/

/-- A call comes to the body of the function, with its parameters in their registers. -/
theorem FunctionLiteral.call {host : Host} (hhost : host.All Script.StaysCalm)
    {l : FunctionLiteral} (hnames : l.names.Nodup) (htakes : l.chunk.Takes l.names)
    (hl : l.chunk.Compiled) (scope : ScopeRef) (vs : List Value) (receiver : Value)
    (args : Array Value) (n : Nat) {e : Engine} (he : e.Intact)
    (hroom : e.depth < e.limits.maxCallDepth) :
    ∃ f e₁ e₂, newFrame l.chunk scope receiver
        ({ l.function scope vs with receiver }.parameters l.names.length args)
        { e with depth := e.depth + 1 } = .ok f e₁ ∧
      f.Crosses (host.call (n + l.names.length)) l.names.length 0 e₁ l.names.length e₂ ∧
      host.call (n + l.names.length + 1) { l.function scope vs with receiver } args e =
        (f.run (host.call (n + l.names.length)) n l.names.length).andThen f.leave e₂ ∧
      f.Took l.names args vs e₂ := by
  set g : Function := { l.function scope vs with receiver }
  obtain ⟨f, e₁, hnew⟩ : ∃ f e₁, newFrame l.chunk scope receiver
      (g.parameters l.names.length args) { e with depth := e.depth + 1 } = .ok f e₁ := ⟨_, _, rfl⟩
  obtain ⟨e₂, hcross, hvalues, hdeclared⟩ := crosses_parameters hl
    (e := { e with depth := e.depth + 1 }) he htakes hnames hnew
    (Host.calm_call hhost (n + l.names.length))
  refine ⟨f, e₁, e₂, hnew, hcross, ?_, fun i v hi hv => ?_, fun i hi hv => ?_,
    fun i name hi => ⟨hdeclared i name hi, Heap.storedIn_of_localCell? (hdeclared i name hi)⟩⟩
  · rw [Function.call_script host rfl, htakes.params]
    refine (execute_entered _ _ hroom hnew).trans ?_
    rw [Script.andThen, Script.andThen, hcross.passes.run]
  · refine hvalues i v hi ?_
    rw [g.getElem?_parameters hi, hv]
    rfl
  · refine hvalues i _ hi ?_
    rw [g.getElem?_parameters hi, hv, Option.none_or]
    simp [g, FunctionLiteral.function]

/-- Arguments behind the last parameter do not matter. -/
theorem Function.call_surplus (host : Host) {g : Function} {c : Chunk} (hg : g.body = .script c)
    (n : Nat) (args : Array Value) (e : Engine) :
    host.call n g args e = host.call n g (args.extract 0 c.paramCount) e := by
  have hparameters : g.parameters c.paramCount args =
      g.parameters c.paramCount (args.extract 0 c.paramCount) := by
    refine Array.ext_getElem? fun i => ?_
    by_cases hi : i < c.paramCount
    · have hsame : (args.extract 0 c.paramCount)[i]? = args[i]? := by
        rw [Array.getElem?_extract]
        split
        · rw [Nat.zero_add]
        · exact (Array.getElem?_eq_none (by omega)).symm
      rw [g.getElem?_parameters hi, g.getElem?_parameters hi, hsame]
    · simp [parameters, hi]
  cases n with
  | zero => rfl
  | succ n => rw [call_script host hg, call_script host hg, hparameters]

/-- Parameters are passed. A function literal, of which the names are different and those with a
default come last, is compiled to code that makes a function. A frame that comes to this code
evaluates each default once, in order, and leaves the code with a function that holds the values.
However the function is called, its frame comes to the body with each parameter in its register:
the argument if there is one, otherwise the value that the default had, otherwise void. Arguments
that are left over do not matter. The name of each parameter is declared to be in that register, so
functions that are made in the body reach the same cell. Different calls have different cells. -/
theorem parameters_are_passed {host : Host} (hhost : host.All Script.StaysCalm)
    (hcomposed : host.All Script.Composed) :
    (∀ (fuel power : Nat) (dest : Int) (place : Position) (s s' : CompileState) (left : Operand),
      s.current.Settled → 2 ≤ dest →
      Compile.function (Compile.productions fuel) power dest place s = .ok left s' →
      ∃ l : FunctionLiteral, l.Made fuel dest s s' ∧
      ∀ c : Chunk, c.Compiled → c.Holds s'.current.chunk s.current.size →
        (∀ (scope : ScopeRef) (receiver : Value) (values : Array Value) (e e₁ e' : Engine)
          (f : Frame) (calls k : Nat), e.Intact → newFrame c scope receiver values e = .ok f e₁ →
          f.Passes (host.call calls) k 0 e₁ s.current.size e' →
          ∀ (k' pc' : Nat) (e'' : Engine),
            f.Passes (host.call calls) k' s.current.size e' pc' e'' →
            s.current.size ≤ pc' ∧ pc' < s'.current.size ∨
              ∃ j ≤ k', ∃ close vs e₂ e₃ ref,
                f.Evaluates (host.call calls) (dest + 1) l.params e' vs e₂ ∧
                vs.length = l.params.length ∧
                f.Crosses (host.call calls) 3 close e₂ (close + 3) e₃ ∧
                f.contents e₃ dest = .function ref ∧
                e₃.heap.function ref = l.function f.activation vs ∧
                f.Passes (host.call calls) (k' - j) (close + 3) e₃ pc' e'') ∧
        (∀ (scope : ScopeRef) (vs : List Value) (receiver : Value) (args : Array Value) (n : Nat)
          (e : Engine), e.Intact → e.depth < e.limits.maxCallDepth →
          ∃ f e₁ e₂, newFrame l.chunk scope receiver
              ({ l.function scope vs with receiver }.parameters l.names.length args)
              { e with depth := e.depth + 1 } = .ok f e₁ ∧
            f.Crosses (host.call (n + l.names.length)) l.names.length 0 e₁ l.names.length e₂ ∧
            host.call (n + l.names.length + 1) { l.function scope vs with receiver } args e =
              (f.run (host.call (n + l.names.length)) n l.names.length).andThen f.leave e₂ ∧
            f.Took l.names args vs e₂ ∧
            ∀ (i : Nat) name, l.names[i]? = some name → ∀ e₃ : Engine,
              e₃.heap.localCell? name f.activation = some (f.cell (-(i + 1))) →
                f.Lends name (-(i + 1)) e₃) ∧
        ∀ (scope : ScopeRef) (vs : List Value) (receiver : Value) (args : Array Value) (n : Nat)
          (e : Engine), host.call n { l.function scope vs with receiver } args e =
            host.call n { l.function scope vs with receiver } (args.extract 0 l.names.length) e) ∧
    ∀ (n : Nat) (g : Function) (args : Array Value) (e e' e'' : Engine) (f f' : Frame) (c : Chunk)
      (scope : ScopeRef) (receiver : Value) (values : Array Value), g.Compiled → e.Intact →
      g.Past host n args e f e' →
      newFrame c scope receiver values { e' with depth := e'.depth + 1 } = .ok f' e'' →
        ∀ r r', f.cell r ≠ f'.cell r' := by
  refine ⟨fun fuel power dest place s s' left hs hdest h => ?_, fun n g args e e' e'' f f' c scope
    receiver values hg he hpast hnew r r' => ?_⟩
  · obtain ⟨l, hmade⟩ := Compile.makes_function hs hdest h
    obtain ⟨close, hclose, hlaid⟩ := hmade.laid
    refine ⟨l, hmade, fun c hc hholds => ⟨?_, ?_, ?_⟩⟩
    · intro scope receiver values e e₁ e' f calls k he hnew hpasses k' pc' e'' hpasses'
      obtain ⟨f', e₁', hnew', rfl, hproper, hsits⟩ := sits_newFrame hc he scope receiver values
      obtain ⟨rfl, rfl⟩ := EStateM.Result.ok.inj (hnew'.symm.trans hnew)
      have hcall : (host.call calls).Calm f'.temps := Host.calm_call hhost calls
      have hlaid' := hlaid.holds hdest hholds
      rcases hpasses'.evaluates hproper hcall (hpasses.sits hproper hcall hsits) hlaid'.defaults
        (by omega) with ⟨hin, hlt⟩ | ⟨j, hj, vs, e₂, heval, hlength, hrow, -, hsits₂, hpasses₂⟩
      · exact .inl ⟨hin, by omega⟩
      · have hle := hlaid'.defaults.le (by omega)
        obtain ⟨e₃, ref, hcross, href, hfunction⟩ :=
          Frame.crosses_makes hproper hcall hsits₂ hdest hlaid' hlength hrow
        rcases hcross.past hpasses₂ with ⟨hin, hlt⟩ | ⟨j', hj', hpasses₃⟩
        · exact .inl ⟨by omega, by omega⟩
        · refine .inr ⟨j + 3, by omega, close, vs, e₂, e₃, ref, heval, hlength, hcross, href,
            hfunction, ?_⟩
          rwa [show k' - (j + 3) = j' by omega]
    · intro scope vs receiver args n e he hroom
      obtain ⟨index, place', hk, -⟩ := (hlaid.holds hdest hholds).makes
      obtain ⟨f, e₁, e₂, hnew, hcross, hcall, htook⟩ := FunctionLiteral.call hhost hmade.names
        hmade.takes (hc.template hk) scope vs receiver args n he hroom
      exact ⟨f, e₁, e₂, hnew, hcross, hcall, htook, fun _ _ _ _ => lends_of_localCell?⟩
    · intro scope vs receiver args n e
      rw [← hmade.takes.params]
      exact Function.call_surplus host rfl n args e
  · obtain ⟨c₀, scope₀, receiver₀, values₀, e₁, hnew₀, hx⟩ := hpast.later hhost hcomposed hg he
    have hlater : e₁.heap.Extends ({ e' with depth := e'.depth + 1 } : Engine).heap := hx
    exact cell_ne_of_newFrame hnew₀ hlater hnew r r'

/-- The code of a script that makes a function with two parameters, of which the second one has a
default. -/
def twoParameterCode : List Instruction :=
  [⟨.loadVoid, 3, 0, 0, ⟨1, 11⟩⟩, ⟨.loadTrue, 4, 0, 0, ⟨1, 18⟩⟩, ⟨.loadConst, 2, 0, 0, ⟨1, 1⟩⟩,
    ⟨.makeFunc, 2, 3, 5, ⟨1, 1⟩⟩, ⟨.bindClosure, 2, 0, 0, ⟨1, 1⟩⟩, ⟨.ret, 2, 0, 0, ⟨1, 27⟩⟩]

theorem compile_twoParameters :
    ∃ root, compile "function (a, b = true) {};" = .ok root ∧
      ∀ n : Nat, root.code[n]? = twoParameterCode[n]? := by
  have hcode : (compile "function (a, b = true) {};").toOption.map (·.code.toList) =
      some twoParameterCode := by
    decide +kernel
  obtain ⟨root, hroot, hcode⟩ := Option.map_eq_some_iff.1 hcode
  refine ⟨root, ?_, fun n => by rw [← hcode, Array.getElem?_toList]⟩
  rcases hc : compile "function (a, b = true) {};" with x | c <;> rw [hc] at hroot <;> cases hroot
  rfl

section TwoParameters

variable {root : Chunk} {l : FunctionLiteral}
  (hat : ∀ n : Nat, root.code[n]? = twoParameterCode[n]?)

include hat

/-- The code says where the literal is, and how many parameters it has. -/
theorem FunctionLiteral.LaidIn.twoParameters {fuel start close : Nat} {dest : Int}
    (h : l.LaidIn fuel dest start close root) :
    close = 2 ∧ dest = 2 ∧ l.params.length = 2 ∧ start = 0 := by
  obtain ⟨k, place, -, -, hmake, -⟩ := h.makes
  rw [hat] at hmake
  have hlt : close < 5 := Nat.lt_of_succ_lt_succ (List.getElem?_eq_some_iff.1 hmake).1
  obtain rfl : close = 2 := by interval_cases close <;> first | rfl | cases hmake
  have hmake := Option.some.inj hmake
  have hdest : (2 : Int) = dest := congrArg Instruction.a hmake
  have hcount : (5 : Int) = dest + 1 + l.params.length := congrArg Instruction.c hmake
  have hdefaults := h.defaults.length_le (by omega)
  omega

/-- The literal ends in front of the return. -/
theorem CompiledLiteral.LiesIn.stop_le {r : CompiledLiteral} {n : Nat} (hr : r.LiesIn root n)
    (hstart : r.start.current.size = 0) : r.stop.current.size ≤ 5 := by
  by_contra hlt
  have hret : r.stop.current.chunk.code[5]? = some ⟨.ret, 2, 0, 0, ⟨1, 27⟩⟩ :=
    (hr.holds.code 5 (by omega) (not_le.1 hlt)).symm.trans (hat 5)
  have hstays := (Compile.yields_function (Compile.adding_productions r.fuel) r.power r.dest r.place
    r.start (.refl _) r.left r.stop r.compiled).1.stays 5 _ (by omega) List.not_mem_nil hret
  exact hstays.goesOn.1 rfl

/-- A frame of the script comes to the return. -/
theorem Frame.passes_twoParameters {f : Frame} {e : Engine} {fuel : Nat} (hproper : f.Proper none)
    (hf : f.chunk = root) (hsits : f.Sits e) {call : Invoke} (hcall : call.Calm f.temps)
    (hlaid : l.LaidIn fuel 2 0 2 root) (hlength : l.params.length = 2) :
    ∃ e', f.Passes call 5 0 e 5 e' := by
  subst hf
  have hhas₃ := (Frame.has_of_fits (hproper.wellFormed.fits 0 _ (hat 0))).1 rfl
  have hstep₃ : f.step call ⟨.loadVoid, 3, 0, 0, ⟨1, 11⟩⟩ e = _ :=
    Frame.step_of_perform rfl (hsits.live.write hproper hhas₃ .void)
  have hsits₃ := Frame.sits_step hproper hcall (hproper.wellFormed.fits 0 _ (hat 0)) hsits hstep₃
  have hhas₄ := (Frame.has_of_fits (hproper.wellFormed.fits 1 _ (hat 1))).1 rfl
  have hstep₄ : f.step call ⟨.loadTrue, 4, 0, 0, ⟨1, 18⟩⟩ _ = _ :=
    Frame.step_of_perform rfl (hsits₃.live.write hproper hhas₄ (.ofBool true))
  have hsits₄ := Frame.sits_step hproper hcall (hproper.wellFormed.fits 1 _ (hat 1)) hsits₃ hstep₄
  have hrow : Row (f.contents _) 3 [.void, .ofBool true] :=
    ⟨(Frame.contents_setCell_ne hproper hhas₄ hhas₃ (by decide) _).trans
      (Frame.contents_setCell_self hproper hsits.live hhas₃ _),
      Frame.contents_setCell_self hproper hsits₃.live hhas₄ _, trivial⟩
  obtain ⟨e', ref, hcross, -, -⟩ :=
    Frame.crosses_makes hproper hcall hsits₄ (le_refl _) hlaid (hlength ▸ rfl) hrow
  exact ⟨e', .step (hat 0) hstep₃ rfl (.step (hat 1) hstep₄ rfl hcross.passes)⟩

end TwoParameters

theorem parameters_are_passed_missing_argument :
    ∃ (root : Chunk) (l : FunctionLiteral) (a b : String) (f₀ f f' : Frame)
      (e₀ e₁ e₂ e₃ e₄ e₅ e₆ e₇ : Engine) (close : Nat) (ref : FunctionRef) (vs : List Value),
      compile "function (a, b = true) {};" = .ok root ∧ l.names = [a, b] ∧
      newFrame root ⟨0⟩ .void #[] (Engine.create {}) = .ok f₀ e₀ ∧
      f₀.Passes (callWithin 9) 5 0 e₀ 5 e₁ ∧
      f₀.Evaluates (callWithin 9) 3 l.params e₀ vs e₂ ∧ vs.length = 2 ∧
      f₀.Crosses (callWithin 9) 3 close e₂ (close + 3) e₃ ∧
      e₃.heap.function ref = l.function f₀.activation vs ∧
      newFrame l.chunk ⟨0⟩ .void #[.str "x", .ofBool true]
        { Engine.create {} with depth := (Engine.create {}).depth + 1 } = .ok f e₄ ∧
      f.Crosses (callWithin 8) 2 0 e₄ 2 e₅ ∧
      f.contents e₅ (-1) = .str "x" ∧ f.contents e₅ (-2) = .ofBool true ∧ f.Lends b (-2) e₅ ∧
      e₆ = Outcome.engine (callWithin 9 (l.function ⟨0⟩ [.void, .ofBool true]) #[.str "x"]
        (Engine.create {})) ∧
      newFrame l.chunk ⟨0⟩ .void #[] { e₆ with depth := e₆.depth + 1 } = .ok f' e₇ ∧
      ∀ r r', f.cell r ≠ f'.cell r' := by
  obtain ⟨root, hroot, hat⟩ := compile_twoParameters
  have hc : root.Compiled := ⟨_, root, hroot, .refl _⟩
  have hstaysCalm : Host.standard.All Script.StaysCalm := Host.standard_staysCalm
  obtain ⟨hliteral, hdistinct⟩ := parameters_are_passed hstaysCalm Host.standard_all
  -- The script makes one function, which is that of a literal with two parameters.
  obtain ⟨r, hr⟩ := function_has_literal hroot (.refl root) (hat 3) rfl
  obtain ⟨l, hmade, hl⟩ := hliteral r.fuel r.power r.dest r.place r.start r.stop r.left r.settled
    r.above r.compiled
  obtain ⟨hruns, hcalls, -⟩ := hl root hc hr.holds
  obtain ⟨close, -, hlaid⟩ := hmade.laid
  have hlaid := hlaid.holds r.above hr.holds
  obtain ⟨rfl, hdest, hlength, hstart⟩ := hlaid.twoParameters hat
  rw [hdest, hstart] at hlaid hruns
  have hcount : l.names.length = 2 := (List.length_map _).trans hlength
  obtain ⟨a, b, hab⟩ := List.length_eq_two.1 hcount
  -- The frame of the script comes to the end.
  obtain ⟨f₀, e₀, hnew₀, rfl, hproper, hsits⟩ :=
    sits_newFrame hc (Engine.intact_create {}) ⟨0⟩ .void #[]
  have hcall : (callWithin 9).Calm f₀.temps := calm_callWithin 9
  obtain ⟨e₁, hpasses⟩ := Frame.passes_twoParameters hat hproper rfl hsits hcall hlaid hlength
  rcases hruns ⟨0⟩ .void #[] _ e₀ e₀ f₀ 9 0 (Engine.intact_create {}) hnew₀ (.stay 0 e₀) 5 5 e₁
    hpasses with hin | ⟨j, -, close, vs, e₂, e₃, ref, heval, hvs, hcross, -, hfunction, -⟩
  · exact absurd hin.2 (hr.stop_le hat hstart).not_gt
  -- The call with an argument, and a call after it.
  obtain ⟨f, e₄, e₅, hnew, hparams, -, htook, hlends⟩ := hcalls ⟨0⟩ [.void, .ofBool true] .void
    #[.str "x"] 6 (Engine.create {}) (Engine.intact_create {}) (by decide +kernel)
  have hvalues : { l.function ⟨0⟩ [.void, .ofBool true] with receiver := Value.void }.parameters 2
      #[.str "x"] = #[.str "x", .ofBool true] := rfl
  rw [hcount, hvalues] at hnew
  rw [hcount] at hparams
  have hframe : Function.Executes .standard 8 (l.function ⟨0⟩ [.void, .ofBool true]) #[.str "x"]
      (Engine.create {}) f 0 e₄ :=
    ⟨l.chunk, e₄, 0, rfl, by decide +kernel, by rw [hmade.takes.params, hcount]; exact hnew,
      by decide, .stay 0 e₄⟩
  have hg : (l.function ⟨0⟩ [.void, .ofBool true]).Compiled := by
    obtain ⟨k, place, hk, -⟩ := hlaid.makes
    intro c hbody
    cases hbody
    exact hc.template hk
  obtain ⟨f', e₇, hnew'⟩ : ∃ f' e₇, newFrame l.chunk ⟨0⟩ .void #[] { Outcome.engine (callWithin 9
      (l.function ⟨0⟩ [.void, .ofBool true]) #[.str "x"] (Engine.create {})) with
        depth := (Outcome.engine (callWithin 9 (l.function ⟨0⟩ [.void, .ofBool true]) #[.str "x"]
          (Engine.create {}))).depth + 1 } = .ok f' e₇ := ⟨_, _, rfl⟩
  refine ⟨f₀.chunk, l, a, b, f₀, f, f', e₀, e₁, e₂, e₃, e₄, e₅, _, e₇, close, ref, vs, hroot, hab,
    hnew₀, hpasses, heval, hvs.trans hlength, hcross, hfunction, hnew, hparams, ?_, ?_, ?_, rfl,
    hnew', ?_⟩
  · exact htook.supplied 0 _ (by omega) rfl
  · exact htook.missing 1 (by omega) rfl
  · exact hlends 1 b (by rw [hab]; rfl) e₅ (htook.declared 1 b (by rw [hab]; rfl)).1
  · exact hdistinct 8 _ _ _ _ _ f f' _ _ _ _ hg (Engine.intact_create {})
      (.ended hframe (.refl _)) hnew'

end ScriptEngine
