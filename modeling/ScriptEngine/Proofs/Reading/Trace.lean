import ScriptEngine.Proofs.Compile.Grammar
import ScriptEngine.Proofs.Expression.Reading
import ScriptEngine.Proofs.Reading.Stream

/-!
# Following a compilation token by token

**Traces.** `Traced m s acts r` says what a step of a compilation does with its lexer on the way to
its end: which tokens it reads, and which it gives back, with the token that the slot held then.
Apart from reading and giving back, the step is *blind*: it neither looks at the lexer nor changes
it. So all that it learns about the source are the tokens that it reads.

**Order.** `Orderly acts ts slot` says that no token is lost: a token is given back right after it
was read, while the slot is empty, and the next read gets it again. The tokens `ts` are those that
were read for the first time, and `slot` is what the slot holds.

**Triples.** `Consumes cs P m Q` is a triple about a trace that begins with what went on before:
where `P` holds, the step has a trace behind which `Q` holds of its result, or the step fails for a
reason that lies in the source, at a mark (`Explained`). There is nothing about fuel in a reason, so
a step that consumes does not run out of fuel. Assertions count the unread text: `Between k` holds
between two tokens, with at most `k` tokens ahead, and `Held t k` when the token `t` was just read.
-/

namespace ScriptEngine

namespace Compile

variable {α β : Type}

/-! ## Traces -/

/-- What a compilation does with its lexer: it reads a token, or gives one back to a slot that
holds a token or none. -/
inductive Act where
  | read (t : Token)
  | back (slot : Option Token) (t : Token)

/-- How a step of a compilation ends. -/
abbrev End (α : Type) := EStateM.Result Failure CompileState α

/-- The same end with another lexer. -/
def End.relex (l : Lexer) : End α → End α
  | .ok a s => .ok a { s with lexer := l }
  | .error x s => .error x { s with lexer := l }

/-- A step that does not look at the lexer. -/
def Blind (m : Compile α) : Prop :=
  ∀ s l, m { s with lexer := l } = End.relex l (m s)

/-- What a step does with its lexer on the way to its end; see the head of the module. -/
inductive Traced : {α : Type} → Compile α → CompileState → List Act → End α → Prop where
  | read {s : CompileState} {t : Token} {l : Lexer} (h : s.lexer.next = (.ok t, l)) :
      Traced next s [.read t] (.ok t { s with lexer := l, position := t.position })
  | refused {s : CompileState} {e : ScriptError} {l : Lexer} (h : s.lexer.next = (.error e, l)) :
      Traced next s [] (.error (.error e) s)
  | back (s : CompileState) (t : Token) : Traced (pushBack t) s [.back s.lexer.pushed t]
      (.ok () { s with lexer := s.lexer.pushBack t })
  | blind {α : Type} {m : Compile α} (h : Blind m) (s : CompileState) : Traced m s [] (m s)
  | andThen {α β : Type} {m : Compile α} {k : α → Compile β} {s s₁ : CompileState} {a : α}
      {acts more : List Act} {r : End β} (hm : Traced m s acts (.ok a s₁))
      (hk : Traced (k a) s₁ more r) : Traced (m >>= k) s (acts ++ more) r
  | stop {α β : Type} {m : Compile α} {k : α → Compile β} {s s₁ : CompileState} {x : Failure}
      {acts : List Act} (hm : Traced m s acts (.error x s₁)) :
      Traced (m >>= k) s acts (.error x s₁)

theorem Traced.sound {m : Compile α} {s : CompileState} {acts : List Act} {r : End α}
    (h : Traced m s acts r) : m s = r := by
  induction h with
  | read h => rw [next_apply, h]
  | refused h => rw [next_apply, h]
  | back | blind => rfl
  | andThen _ _ ihm ihk =>
    rw [bind_apply, ihm]
    exact ihk
  | stop _ ihm => rw [bind_apply, ihm]

/-- What was read and given back in order; see the head of the module. -/
inductive Orderly : List Act → List Token → Option Token → Prop where
  | start : Orderly [] [] none
  | fresh {acts : List Act} {ts : List Token} (t : Token) (h : Orderly acts ts none) :
      Orderly (acts ++ [.read t]) (ts ++ [t]) none
  | back {acts : List Act} {ts : List Token} {t : Token} (h : Orderly (acts ++ [.read t]) ts none) :
      Orderly (acts ++ [.read t] ++ [.back none t]) ts (some t)
  | again {acts : List Act} {ts : List Token} {t : Token} (h : Orderly acts ts (some t)) :
      Orderly (acts ++ [.read t]) ts none

/-- The token that was read last, or that is in the slot, is the last one of all. -/
theorem Orderly.getLast? {acts : List Act} {ts : List Token} {slot : Option Token}
    (h : Orderly acts ts slot) (t : Token) :
    (∀ before, acts = before ++ [.read t] → ts.getLast? = some t) ∧
      (slot = some t → ts.getLast? = some t) := by
  induction h generalizing t with
  | start => simp
  | fresh u h =>
    refine ⟨fun before heq => ?_, nofun⟩
    cases (List.append_inj' heq rfl).2
    simp
  | back h ih =>
    refine ⟨fun before heq => ?_, fun heq => ?_⟩
    · cases (List.append_inj' heq rfl).2
    · cases heq
      exact (ih _).1 _ rfl
  | again h ih =>
    refine ⟨fun before heq => ?_, nofun⟩
    cases (List.append_inj' heq rfl).2
    exact (ih _).2 rfl

/-- A trace that is in order, by which a compilation has read the given tokens of its source, and
nothing behind the end. -/
structure Consumed (cs : List Char) (acts : List Act) (ts : List Token) : Prop where
  orderly : ∃ slot, Orderly acts ts slot
  yields : ∃ l, (Lexer.ofText cs).Yields ts l
  inside : ∀ t ∈ ts.dropLast, t.kind ≠ .finish

end Compile

/-! ## Marked code -/

/-- All instructions of a chunk, at any depth, have positions that are marks. -/
def Chunk.Marked (c : Chunk) (cs : List Char) : Prop :=
  ∀ d, c.Contains d → ∀ i ∈ d.code, i.position.Marks cs

/-- All code of a compilation is marked, and so is the place of the token read last. -/
structure CompileState.Marked (s : CompileState) (cs : List Char) : Prop where
  current : s.current.chunk.Marked cs
  enclosing : ∀ f ∈ s.enclosing, f.chunk.Marked cs
  position : s.position.Marks cs

namespace Chunk

variable {c d : Chunk} {cs : List Char}

theorem marked_empty (name : Option String) : (empty name).Marked cs := by
  intro d hd
  cases hd with
  | refl => simp [empty]
  | step h => simp [empty] at h

/-- Changed code that has the same constants. -/
theorem Marked.of_code (h : c.Marked cs) (hcode : ∀ i ∈ d.code, i ∈ c.code ∨ i.position.Marks cs)
    (hconstants : d.constants = c.constants) : d.Marked cs := by
  intro e he i hi
  cases he with
  | refl =>
    rcases hcode i hi with hi | hi
    · exact h c (.refl c) i hi
    · exact hi
  | step hinner he => exact h e (.step (hconstants ▸ hinner) he) i hi

theorem Marked.emit (h : c.Marked cs) {i : Instruction} (hi : i.position.Marks cs) :
    (c.emit i).Marked cs := by
  refine h.of_code (fun j hj => ?_) rfl
  rcases Array.mem_push.1 hj with hj | rfl
  · exact .inl hj
  · exact .inr hi

theorem Marked.modifyAt (h : c.Marked cs) (n : Nat) {f : Instruction → Instruction}
    (hf : ∀ i, i.position.Marks cs → (f i).position.Marks cs) : (c.modifyAt n f).Marked cs := by
  refine h.of_code (fun j hj => ?_) rfl
  obtain ⟨m, hm, rfl⟩ := Array.mem_iff_getElem.1 hj
  simp only [Chunk.modifyAt, Array.size_modify] at hm
  have hold : c.code[m].position.Marks cs := h c (.refl c) _ (Array.getElem_mem hm)
  simp only [Chunk.modifyAt, Array.getElem_modify]
  split
  · exact .inr (hf _ hold)
  · exact .inr hold

theorem Marked.patchJump (h : c.Marked cs) (n target : Nat) : (c.patchJump n target).Marked cs := by
  refine h.modifyAt n fun i hi => ?_
  split <;> exact hi

theorem Marked.foldl_patchJump (h : c.Marked cs) (target : Nat) (ns : List Nat) :
    (ns.foldl (fun c n => c.patchJump n target) c).Marked cs := by
  induction ns generalizing c with
  | nil => exact h
  | cons n ns ih => exact ih (h.patchJump n target)

theorem Marked.addConstant (h : c.Marked cs) {k : Constant}
    (hk : ∀ inner, k = .template inner → inner.Marked cs) : (c.addConstant k).1.Marked cs := by
  unfold Chunk.addConstant
  split
  · exact h
  · intro d hd i hi
    cases hd with
    | refl => exact h c (.refl c) i hi
    | step hinner hd =>
      rename_i n
      simp only [Array.getElem?_push] at hinner
      split at hinner
      · exact hk _ (Option.some.inj hinner) d hd i hi
      · exact h d (.step hinner hd) i hi

end Chunk

/-! ## Blind steps -/

namespace Compile

/-- A blind step that keeps all code marked, gives a result of which `R` holds, and fails only for
a fault of the grammar at a mark. -/
structure Tidy (cs : List Char) (m : Compile α) (R : α → Prop) : Prop where
  blind : Blind m
  ok : ∀ {s a s'}, s.Marked cs → m s = .ok a s' → s'.Marked cs ∧ R a
  error : ∀ {s x s'}, s.Marked cs → m s = .error x s' →
    ∃ cause place, x = .error (.grammar cause place) ∧ place.Marks cs

variable {cs : List Char}

theorem Blind.lexer {m : Compile α} (h : Blind m) {s s' : CompileState} {a : α}
    (hm : m s = .ok a s') : s'.lexer = s.lexer := by
  have hself : m s = End.relex s.lexer (m s) := h s s.lexer
  rw [hm] at hself
  obtain ⟨-, hs'⟩ := EStateM.Result.ok.inj hself
  rw [hs']

namespace Tidy

variable {m : Compile α} {R : α → Prop} {S : β → Prop}

/-- A step that always succeeds. -/
theorem of_ok (h : ∀ s, ∃ a s', m s = .ok a s' ∧
    (∀ l, m { s with lexer := l } = .ok a { s' with lexer := l }) ∧
      (s.Marked cs → s'.Marked cs ∧ R a)) : Tidy cs m R := by
  refine ⟨fun s l => ?_, fun {s a s'} hs hm => ?_, fun {s x s'} _ hm => ?_⟩
  · obtain ⟨a, s', hm, hl, -⟩ := h s
    rw [hm]
    exact hl l
  · obtain ⟨a', s'', hm', -, hkeeps⟩ := h s
    rw [hm] at hm'
    cases hm'
    exact hkeeps hs
  · obtain ⟨a', s'', hm', -⟩ := h s
    rw [hm] at hm'
    cases hm'

theorem bind {k : α → Compile β} (hm : Tidy cs m R) (hk : ∀ a, Tidy cs (k a) S) :
    Tidy cs (m >>= k) S := by
  refine ⟨fun s l => ?_, fun {s b s'} hs h => ?_, fun {s x s'} hs h => ?_⟩
  · rw [bind_apply, bind_apply, hm.blind s l]
    rcases m s with ⟨a, s₁⟩ | ⟨x, s₁⟩
    · exact (hk a).blind s₁ l
    · rfl
  · obtain ⟨a, s₁, h₁, h₂⟩ := bind_eq_ok h
    exact (hk a).ok (hm.ok hs h₁).1 h₂
  · rcases bind_eq_error h with h | ⟨a, s₁, h₁, h₂⟩
    · exact hm.error hs h
    · exact (hk a).error (hm.ok hs h₁).1 h₂

theorem pure {a : α} (ha : R a) : Tidy cs (pure a : Compile α) R :=
  .of_ok fun s => ⟨a, s, rfl, fun _ => rfl, fun hs => ⟨hs, ha⟩⟩

/-- Looking at the state, but not at its lexer. -/
theorem get_bind {k : CompileState → Compile β} (hk : ∀ s, Tidy cs (k s) S)
    (hlexer : ∀ s l, k { s with lexer := l } = k s) : Tidy cs (get >>= k) S := by
  refine ⟨fun s l => ?_, fun {s b s'} hs h => (hk s).ok hs h, fun {s x s'} hs h => (hk s).error hs h⟩
  change k { s with lexer := l } { s with lexer := l } = End.relex l (k s s)
  rw [hlexer]
  exact (hk s).blind s l

theorem ite {c : Prop} [Decidable c] {m₁ m₂ : Compile α} (h₁ : Tidy cs m₁ R) (h₂ : Tidy cs m₂ R) :
    Tidy cs (if c then m₁ else m₂) R := by
  split
  · exact h₁
  · exact h₂

end Tidy

theorem tidy_fail {R : α → Prop} (cause : GrammarFault) {place : Position} (h : place.Marks cs) :
    Tidy cs (fail cause place : Compile α) R := by
  refine ⟨fun _ _ => rfl, fun _ hm => ?_, fun _ hm => ?_⟩
  · cases hm
  · cases hm
    exact ⟨cause, place, rfl, h⟩

theorem tidy_modifyCurrent {f : FunctionState → FunctionState}
    (h : ∀ g, g.chunk.Marked cs → (f g).chunk.Marked cs) :
    Tidy cs (modifyCurrent f) fun _ => True :=
  .of_ok fun _ => ⟨_, _, rfl, fun _ => rfl,
    fun hs => ⟨⟨h _ hs.current, hs.enclosing, hs.position⟩, trivial⟩⟩

theorem tidy_modifyChunk {f : Chunk → Chunk} (h : ∀ c, c.Marked cs → (f c).Marked cs) :
    Tidy cs (modifyChunk f) fun _ => True :=
  tidy_modifyCurrent fun g => h g.chunk

theorem tidy_here : Tidy cs here fun _ => True :=
  .of_ok fun s => ⟨_, s, rfl, fun _ => rfl, fun hs => ⟨hs, trivial⟩⟩

theorem tidy_emitAt {place : Position} (h : place.Marks cs) (op : Op) (a b c : Int) :
    Tidy cs (emitAt place op a b c) fun _ => True :=
  tidy_here.bind fun _ => (tidy_modifyChunk fun _ hc => hc.emit h).bind fun _ => .pure trivial

theorem tidy_emit (op : Op) (a b c : Int) : Tidy cs (emit op a b c) fun _ => True :=
  .of_ok fun _ => ⟨_, _, rfl, fun _ => rfl, fun hs =>
    ⟨⟨hs.current.emit hs.position, hs.enclosing, hs.position⟩, trivial⟩⟩

theorem tidy_patch (n target : Nat) : Tidy cs (patch n target) fun _ => True :=
  tidy_modifyChunk fun _ hc => hc.patchJump n target

theorem tidy_constant {k : Constant} (hk : ∀ inner, k = .template inner → inner.Marked cs) :
    Tidy cs (constant k) fun _ => True :=
  .of_ok fun s => ⟨_, _, constant_apply k s, fun _ => rfl, fun hs =>
    ⟨⟨hs.current.addConstant hk, hs.enclosing, hs.position⟩, trivial⟩⟩

theorem tidy_name (s : String) : Tidy cs (name s) fun _ => True :=
  tidy_constant nofun

theorem tidy_erase (n : Nat) : Tidy cs (erase n) fun _ => True :=
  tidy_modifyChunk fun _ hc => hc.modifyAt n fun _ hi => hi

theorem tidy_retarget (load : Nat) (dest receiver key : Int) :
    Tidy cs (retarget load dest receiver key) fun _ => True := by
  refine Tidy.bind (tidy_modifyChunk fun c hc => ?_) fun _ => .pure trivial
  have hload : (c.modifyAt load ({ · with a := above dest receiver key })).Marked cs :=
    hc.modifyAt load fun _ hi => hi
  exact hload.of_code (fun _ hi => .inl hi) rfl

/-- A declaration changes no instruction and no constant. -/
theorem marked_declare {f : FunctionState} (h : f.chunk.Marked cs) (s : String) :
    (f.declare s).1.chunk.Marked cs := by
  unfold FunctionState.declare
  dsimp only
  split
  · exact h
  · exact h.of_code (fun _ hi => .inl hi) rfl

theorem tidy_declare (s : String) : Tidy cs (declare s) fun _ => True :=
  .of_ok fun _ => ⟨_, _, rfl, fun _ => rfl, fun hs =>
    ⟨⟨marked_declare hs.current s, hs.enclosing, hs.position⟩, trivial⟩⟩

theorem tidy_openBlock : Tidy cs (modifyCurrent (·.openBlock)) fun _ => True :=
  tidy_modifyCurrent fun _ h => h

theorem tidy_closeBlock : Tidy cs (modifyCurrent (·.closeBlock)) fun _ => True :=
  tidy_modifyCurrent fun _ h => h

theorem tidy_openLoop : Tidy cs openLoop fun _ => True :=
  tidy_modifyCurrent fun _ h => h

theorem tidy_closeLoop (exit resume : Nat) : Tidy cs (closeLoop exit resume) fun _ => True := by
  refine tidy_modifyCurrent fun f h => ?_
  split
  · exact h
  · exact (h.foldl_patchJump exit _).foldl_patchJump resume _

theorem marked_function (named : Option String) (params : List String) :
    (FunctionState.function named params).chunk.Marked cs := by
  have hfold : ∀ (params : List String) (f : FunctionState), f.chunk.Marked cs →
      (params.foldl (fun f param => (f.declare param).1) f).chunk.Marked cs := by
    intro params
    induction params with
    | nil => exact fun _ h => h
    | cons s params ih => exact fun f h => ih _ (marked_declare h s)
  exact hfold params _ ((Chunk.marked_empty named).of_code (fun _ hi => .inl hi) rfl)

theorem tidy_enterFunction (named : Option String) (params : List String) :
    Tidy cs (enterFunction (.function named params)) fun _ => True :=
  .of_ok fun _ => ⟨_, _, rfl, fun _ => rfl, fun hs => ⟨⟨marked_function named params,
    List.forall_mem_cons.2 ⟨hs.current, hs.enclosing⟩, hs.position⟩, trivial⟩⟩

theorem leaveFunction_apply (s : CompileState) : leaveFunction s = match s.enclosing with
    | outer :: enclosing => .ok s.current.chunk { s with current := outer, enclosing }
    | [] => .ok s.current.chunk { s with current := .script } := by
  rcases h : s.enclosing with _ | ⟨outer, enclosing⟩
  · exact leaveFunction_nil h
  · exact leaveFunction_cons h

/-- The chunk of a function that is left is marked. -/
theorem tidy_leaveFunction : Tidy cs leaveFunction fun c => c.Marked cs := by
  refine .of_ok fun s => ?_
  simp only [leaveFunction_apply]
  rcases henclosing : s.enclosing with _ | ⟨outer, enclosing⟩
  · exact ⟨_, _, rfl, fun _ => rfl,
      fun hs => ⟨⟨Chunk.marked_empty none, nofun, hs.position⟩, hs.current⟩⟩
  · refine ⟨_, _, rfl, fun _ => rfl, fun hs => ?_⟩
    have hall := hs.enclosing
    rw [henclosing] at hall
    obtain ⟨houter, hrest⟩ := List.forall_mem_cons.1 hall
    exact ⟨⟨houter, hrest, hs.position⟩, hs.current⟩

/-! ## Triples -/

/-- A failure of a compilation that is explained by its source: what was read was read in order, and
what is wrong with the source is wrong at a mark. -/
structure Explained (cs : List Char) (acts : List Act) (x : Failure) : Prop where
  consumed : ∃ ts, Consumed cs acts ts
  reason : ∃ e place, x = .error e ∧ place.Marks cs ∧
    ((∃ cause, e = .lexical cause place) ∨ ∃ cause, e = .grammar cause place)

/-- A step consumes tokens in order; see the head of the module. -/
def Consumes (cs : List Char) (P : List Act → CompileState → Prop) (m : Compile α)
    (Q : α → List Act → CompileState → Prop) : Prop :=
  ∀ log s, P log s → ∃ acts r, Traced m s acts r ∧
    match r with
    | .ok a s' => Q a (log ++ acts) s'
    | .error x _ => Explained cs (log ++ acts) x

namespace Consumes

variable {P P' : List Act → CompileState → Prop} {Q Q' : α → List Act → CompileState → Prop}
  {R : β → List Act → CompileState → Prop} {m : Compile α}

theorem bind {k : α → Compile β} (hm : Consumes cs P m Q) (hk : ∀ a, Consumes cs (Q a) (k a) R) :
    Consumes cs P (m >>= k) R := by
  intro log s hP
  obtain ⟨acts, r, htraced, hr⟩ := hm log s hP
  rcases r with ⟨a, s₁⟩ | ⟨x, s₁⟩
  · obtain ⟨more, r, htraced', hr'⟩ := hk a _ _ hr
    exact ⟨acts ++ more, r, .andThen htraced htraced', by rwa [← List.append_assoc]⟩
  · exact ⟨acts, _, .stop htraced, hr⟩

theorem consequence (h : Consumes cs P m Q) (hP : ∀ log s, P' log s → P log s)
    (hQ : ∀ a log s, Q a log s → Q' a log s) : Consumes cs P' m Q' := by
  intro log s hP'
  obtain ⟨acts, r, htraced, hr⟩ := h log s (hP log s hP')
  refine ⟨acts, r, htraced, ?_⟩
  cases r with
  | ok a s' => exact hQ _ _ _ hr
  | error x s' => exact hr

theorem before (h : Consumes cs P m Q) (hP : ∀ log s, P' log s → P log s) : Consumes cs P' m Q :=
  h.consequence hP fun _ _ _ h => h

theorem after (h : Consumes cs P m Q) (hQ : ∀ a log s, Q a log s → Q' a log s) :
    Consumes cs P m Q' :=
  h.consequence (fun _ _ h => h) hQ

/-- A fact that an assertion implies can be assumed. -/
theorem assume {F : Prop} (hF : ∀ log s, P log s → F) (h : F → Consumes cs P m Q) :
    Consumes cs P m Q :=
  fun log s hP => h (hF log s hP) log s hP

theorem ite {c : Prop} [Decidable c] {m₁ m₂ : Compile α} (h₁ : c → Consumes cs P m₁ Q)
    (h₂ : ¬c → Consumes cs P m₂ Q) : Consumes cs P (if c then m₁ else m₂) Q := by
  split
  · exact h₁ ‹_›
  · exact h₂ ‹_›

theorem pure {a : α} (h : ∀ log s, P log s → Q a log s) : Consumes cs P (pure a : Compile α) Q :=
  fun log s hP => ⟨[], _, .blind (fun _ _ => rfl) s, by rw [List.append_nil]; exact h log s hP⟩

end Consumes

/-! ## Assertions -/

/-- The tokens that a compilation has read, in the state that it is in. -/
structure Follows (cs : List Char) (log : List Act) (ts : List Token) (s : CompileState) : Prop where
  orderly : Orderly log ts s.lexer.pushed
  yields : (Lexer.ofText cs).Yields ts { s.lexer with pushed := none }
  inside : ∀ t ∈ ts.dropLast, t.kind ≠ .finish

/-- How many tokens a token counts for: the end counts for none. -/
def weight (t : Token) : Nat :=
  if t.kind = .finish then 0 else 1

/-- A bound on the number of tokens that a lexer gives before the end. -/
def unread (l : Lexer) : Nat :=
  l.rest.length + (l.pushed.map weight).getD 0

/-- The start of a compilation, or a place between two tokens. -/
structure Ready (cs : List Char) (k : Nat) (log : List Act) (s : CompileState) : Prop where
  follows : ∃ ts, Follows cs log ts s ∧ (s.lexer.pushed = none → ∀ t ∈ ts, t.kind ≠ .finish)
  bound : unread s.lexer ≤ k
  current : s.current.chunk.Marked cs
  enclosing : ∀ f ∈ s.enclosing, f.chunk.Marked cs

/-- A place between two tokens, with at most `k` tokens ahead. -/
structure Between (cs : List Char) (k : Nat) (log : List Act) (s : CompileState) : Prop
    extends Ready cs k log s where
  position : s.position.Marks cs

/-- A token was given back, with at most `k` tokens ahead. -/
structure Given (cs : List Char) (t : Token) (k : Nat) (log : List Act) (s : CompileState) : Prop
    extends Between cs k log s where
  pushed : s.lexer.pushed = some t

/-- A token was just read, with at most `k` tokens from this one on. -/
structure Held (cs : List Char) (t : Token) (k : Nat) (log : List Act) (s : CompileState) : Prop where
  follows : ∃ ts, Follows cs log ts s
  read : ∃ before, log = before ++ [.read t]
  pushed : s.lexer.pushed = none
  bound : s.lexer.rest.length + weight t ≤ k
  marked : s.Marked cs
  marks : t.position.Marks cs

variable {k j : Nat} {t : Token} {log : List Act} {s : CompileState}

theorem Follows.consumed {ts : List Token} (h : Follows cs log ts s) : Consumed cs log ts :=
  ⟨⟨_, h.orderly⟩, ⟨_, h.yields⟩, h.inside⟩

theorem Between.marked (h : Between cs k log s) : s.Marked cs :=
  ⟨h.current, h.enclosing, h.position⟩

theorem Between.mono (h : Between cs k log s) (hk : k ≤ j) : Between cs j log s :=
  ⟨⟨h.follows, h.bound.trans hk, h.current, h.enclosing⟩, h.position⟩

/-- A token that was read, other than the end, is behind the compilation. -/
theorem Held.spend (h : Held cs t k log s) (ht : t.kind ≠ .finish) :
    ∃ j, k = j + 1 ∧ Between cs j log s := by
  obtain ⟨ts, hfollows⟩ := h.follows
  obtain ⟨before, hlog⟩ := h.read
  have hlast := (hfollows.orderly.getLast? t).1 before hlog
  have hbound := h.bound
  rw [weight, if_neg ht] at hbound
  refine ⟨k - 1, by omega, ⟨⟨ts, hfollows, fun _ u hu => ?_⟩, ?_, h.marked.current,
    h.marked.enclosing⟩, h.marked.position⟩
  · rw [← List.dropLast_append_getLast? t hlast] at hu
    rcases List.mem_append.1 hu with hu | hu
    · exact hfollows.inside u hu
    · exact List.mem_singleton.1 hu ▸ ht
  · rw [unread, h.pushed, Option.map_none, Option.getD_none]
    omega

theorem Held.mono (h : Held cs t k log s) (hk : k ≤ j) : Held cs t j log s :=
  ⟨h.follows, h.read, h.pushed, h.bound.trans hk, h.marked, h.marks⟩

theorem Held.between (h : Held cs t k log s) (ht : t.kind ≠ .finish) : Between cs k log s := by
  obtain ⟨j, rfl, hbetween⟩ := h.spend ht
  exact hbetween.mono (Nat.le_succ j)

/-- An assertion that is about the lexer, while all code is marked. -/
structure Stable (cs : List Char) (P : List Act → CompileState → Prop) : Prop where
  consumed : ∀ {log s}, P log s → ∃ ts, Consumed cs log ts
  marked : ∀ {log s}, P log s → s.Marked cs
  congr : ∀ {log s s'}, P log s → s'.lexer = s.lexer → s'.Marked cs → P log s'

theorem Follows.congr {ts : List Token} {s' : CompileState} (h : Follows cs log ts s)
    (hlexer : s'.lexer = s.lexer) : Follows cs log ts s' :=
  ⟨hlexer ▸ h.orderly, hlexer ▸ h.yields, h.inside⟩

theorem stable_between : Stable cs (Between cs k) where
  consumed h := let ⟨ts, hfollows, _⟩ := h.follows; ⟨ts, hfollows.consumed⟩
  marked h := h.marked
  congr h hlexer hmarked := by
    obtain ⟨ts, hfollows, hopen⟩ := h.follows
    exact ⟨⟨⟨ts, hfollows.congr hlexer, hlexer ▸ hopen⟩, hlexer ▸ h.bound, hmarked.current,
      hmarked.enclosing⟩, hmarked.position⟩

theorem stable_held : Stable cs (Held cs t k) where
  consumed h := let ⟨ts, hfollows⟩ := h.follows; ⟨ts, hfollows.consumed⟩
  marked h := h.marked
  congr h hlexer hmarked := by
    obtain ⟨ts, hfollows⟩ := h.follows
    exact ⟨⟨ts, hfollows.congr hlexer⟩, h.read, hlexer ▸ h.pushed, hlexer ▸ h.bound, hmarked, h.marks⟩

/-! ## Rules -/

section

variable {m : Compile α} {f : α → Compile β} {R : α → Prop} {P : List Act → CompileState → Prop}
  {Q : β → List Act → CompileState → Prop}

theorem Tidy.consumes (hm : Tidy cs m R) (hP : Stable cs P) :
    Consumes cs P m fun a log s => R a ∧ P log s := by
  intro log s hs
  refine ⟨[], m s, .blind hm.blind s, ?_⟩
  rw [List.append_nil]
  rcases hms : m s with ⟨a, s'⟩ | ⟨x, s'⟩
  · obtain ⟨hmarked, ha⟩ := hm.ok (hP.marked hs) hms
    exact ⟨ha, hP.congr hs (hm.blind.lexer hms) hmarked⟩
  · obtain ⟨cause, place, rfl, hplace⟩ := hm.error (hP.marked hs) hms
    exact ⟨hP.consumed hs, _, place, rfl, hplace, .inr ⟨cause, rfl⟩⟩

/-- A blind step in front of others. -/
theorem Tidy.andThen (hm : Tidy cs m R) (hP : Stable cs P) (hk : ∀ a, R a → Consumes cs P (f a) Q) :
    Consumes cs P (m >>= f) Q :=
  (hm.consumes hP).bind fun a => .assume (fun _ _ h => h.1) fun ha =>
    (hk a ha).before fun _ _ h => h.2

/-- A blind step at the end. -/
theorem Tidy.last (hm : Tidy cs m R) (hP : Stable cs P) : Consumes cs P m fun _ => P :=
  (hm.consumes hP).after fun _ _ _ h => h.2

theorem consumes_fail {Q : α → List Act → CompileState → Prop} (hP : Stable cs P)
    (cause : GrammarFault) {place : Position} (h : place.Marks cs) :
    Consumes cs P (fail cause place) Q :=
  ((tidy_fail (R := fun _ => False) cause h).consumes hP).after fun _ _ _ h => h.1.elim

/-- A token that was just read is read for good. -/
theorem Consumes.spend {Q : α → List Act → CompileState → Prop} (ht : t.kind ≠ .finish)
    (h : ∀ j, k = j + 1 → t.position.Marks cs → Consumes cs (Between cs j) m Q) :
    Consumes cs (Held cs t k) m Q := by
  intro log s hheld
  obtain ⟨j, hk, hbetween⟩ := hheld.spend ht
  exact h j hk hheld.marks log s hbetween

end

/-- A token that was given back is read again. -/
theorem Ready.next_pushed (h : Ready cs k log s) (hpushed : s.lexer.pushed = some t) :
    Held cs t k (log ++ [.read t])
      { s with lexer := { s.lexer with pushed := none }, position := t.position } := by
  obtain ⟨ts, hfollows, -⟩ := h.follows
  have horderly := hfollows.orderly
  rw [hpushed] at horderly
  have hmarks : t.position.Marks cs :=
    hfollows.yields.marks t (List.mem_of_getLast? ((horderly.getLast? t).2 rfl))
  have hbound := h.bound
  rw [unread, hpushed, Option.map_some, Option.getD_some] at hbound
  exact ⟨⟨ts, horderly.again, hfollows.yields, hfollows.inside⟩, ⟨log, rfl⟩, rfl, hbound,
    ⟨h.current, h.enclosing, hmarks⟩, hmarks⟩

/-- The next token of the source is read. -/
theorem Ready.next_fresh {l : Lexer} (h : Ready cs k log s) (hpushed : s.lexer.pushed = none)
    (hfetch : s.lexer.fetch = (.ok t, l)) :
    Held cs t k (log ++ [.read t]) { s with lexer := l, position := t.position } := by
  obtain ⟨ts, hfollows, hopen⟩ := h.follows
  have hself : { s.lexer with pushed := none } = s.lexer := by
    rw [← hpushed]
  have hl : l.pushed = none := (Lexer.pushed_fetch hfetch).trans hpushed
  have hlself : { l with pushed := none } = l := by
    rw [← hl]
  have hyields := hself ▸ hfollows.yields
  have hmarks := (hyields.within.fetch_ok hfetch).1
  have hbound := h.bound
  rw [unread, hpushed, Option.map_none, Option.getD_none] at hbound
  refine ⟨⟨ts ++ [t], ?_, ?_, ?_⟩, ⟨log, rfl⟩, hl, ?_, ⟨h.current, h.enclosing, hmarks⟩, hmarks⟩
  · show Orderly _ _ l.pushed
    rw [hl]
    exact .fresh t (hpushed ▸ hfollows.orderly)
  · show Lexer.Yields _ _ { l with pushed := none }
    rw [hlself]
    exact hyields.snoc hfetch
  · rw [List.dropLast_concat]
    exact hopen hpushed
  · show l.rest.length + weight t ≤ k
    unfold weight
    split
    · exact (Lexer.fetch_length_le hfetch).trans hbound
    · rename_i ht
      have := Lexer.fetch_shortens hfetch ht
      omega

theorem consumes_next : Consumes cs (Ready cs k) next fun t => Held cs t k := by
  intro log s h
  rcases hpushed : s.lexer.pushed with _ | t
  · rcases hfetch : s.lexer.fetch with ⟨e | t, l⟩
    · have hnext : s.lexer.next = (.error e, l) := (Lexer.next_eq_fetch hpushed).trans hfetch
      obtain ⟨ts, hfollows, -⟩ := h.follows
      have hself : { s.lexer with pushed := none } = s.lexer := by
        rw [← hpushed]
      obtain ⟨cause, place, rfl, hplace⟩ := (hself ▸ hfollows.yields).within.fetch_error hfetch
      refine ⟨[], _, .refused hnext, ?_⟩
      rw [List.append_nil]
      exact ⟨⟨ts, hfollows.consumed⟩, _, place, rfl, hplace, .inl ⟨cause, rfl⟩⟩
    · have hnext : s.lexer.next = (.ok t, l) := (Lexer.next_eq_fetch hpushed).trans hfetch
      exact ⟨[.read t], _, .read hnext, h.next_fresh hpushed hfetch⟩
  · have hnext : s.lexer.next = (.ok t, { s.lexer with pushed := none }) := by
      simp only [Lexer.next, hpushed]
    exact ⟨[.read t], _, .read hnext, h.next_pushed hpushed⟩

/-- Reading between two tokens. -/
theorem consumes_read : Consumes cs (Between cs k) next fun t => Held cs t k :=
  consumes_next.before fun _ _ h => h.toReady

/-- Reading a token that was given back. -/
theorem consumes_reread : Consumes cs (Given cs t k) next fun u log s => u = t ∧ Held cs t k log s := by
  intro log s h
  have hnext : s.lexer.next = (.ok t, { s.lexer with pushed := none }) := by
    simp only [Lexer.next, h.pushed]
  exact ⟨[.read t], _, .read hnext, rfl, h.toReady.next_pushed h.pushed⟩

/-- A token is given back while the slot is empty. -/
theorem consumes_pushBack : Consumes cs (Held cs t k) (pushBack t) fun _ => Given cs t k := by
  intro log s h
  refine ⟨_, _, .back s t, ?_⟩
  obtain ⟨ts, hfollows⟩ := h.follows
  obtain ⟨before, rfl⟩ := h.read
  have horderly := hfollows.orderly
  rw [h.pushed] at horderly ⊢
  exact ⟨⟨⟨⟨ts, ⟨horderly.back, hfollows.yields, hfollows.inside⟩, nofun⟩, h.bound,
    h.marked.current, h.marked.enclosing⟩, h.marked.position⟩, rfl⟩

/-- Giving a token back, to go on between two tokens. -/
theorem consumes_return : Consumes cs (Held cs t k) (pushBack t) fun _ => Between cs k :=
  consumes_pushBack.after fun _ _ _ h => h.toBetween

theorem consumes_expect {kind : Token.Kind} (hkind : kind ≠ .finish) :
    Consumes cs (Between cs k) (expect kind) fun _ => Between cs k := by
  refine consumes_read.bind fun t => .ite (fun ht => ?_) fun _ => ?_
  · exact .pure fun _ _ h => h.between (ht ▸ hkind)
  · exact .assume (fun _ _ h => h.marks) fun hmarks => consumes_fail stable_held _ hmarks

theorem consumes_atTerminator : Consumes cs (Between cs k) atTerminator fun _ => Between cs k :=
  consumes_read.bind fun _ => consumes_return.bind fun _ => .pure fun _ _ h => h

end Compile

end ScriptEngine
