import ScriptEngine.Compile
import ScriptEngine.Proofs.WellFormed

/-!
# What the steps of a compilation keep

`Keeps P m Q` says that a step `m` of a compilation, started with sound code of which `P` holds,
leaves sound code that extends it and of which `Q` holds, or fails for a reason that lies in the
text. Code inside an enclosing function is not touched. Steps compose (`Keeps.bind`), and a property
that lasts while code grows can be carried past any step (`Keeps.lift`).

Below are the rules for the primitive steps: reading tokens, emitting, patching and rewriting
instructions, adding constants, and opening and closing loops and functions.
-/

namespace ScriptEngine

/-- A function in the making: its code is sound, and its locals are below zero. -/
structure FunctionState.Sound (f : FunctionState) : Prop where
  code : f.chunk.Sound
  next : f.nextLocal < 0
  locals : ∀ block ∈ f.blocks, ∀ x ∈ block, x.2 < 0

/-- A failure for a reason in the text of a source, whose place is known, or for want of fuel. -/
def Failure.OfText : Failure → Prop
  | .error e => (∀ cause, e.fault ≠ .runtime cause) ∧ ∃ place, e.trace = [place]
  | .exhausted => True

namespace Compile

/-! ## Steps -/

theorem bind_apply {α β : Type} (m : Compile α) (k : α → Compile β) (s : CompileState) :
    (m >>= k) s = match m s with
      | .ok a s' => k a s'
      | .error f s' => .error f s' := by
  change EStateM.bind m k s = _
  unfold EStateM.bind
  rcases m s with ⟨a, s₁⟩ | ⟨f, s₁⟩ <;> rfl

theorem bind_eq_ok {α β : Type} {m : Compile α} {k : α → Compile β} {s s' : CompileState} {b : β}
    (h : (m >>= k) s = .ok b s') : ∃ a s₁, m s = .ok a s₁ ∧ k a s₁ = .ok b s' := by
  change EStateM.bind m k s = _ at h
  unfold EStateM.bind at h
  split at h
  · exact ⟨_, _, ‹_›, h⟩
  · cases h

theorem bind_eq_error {α β : Type} {m : Compile α} {k : α → Compile β} {s s' : CompileState}
    {f : Failure} (h : (m >>= k) s = .error f s') :
    m s = .error f s' ∨ ∃ a s₁, m s = .ok a s₁ ∧ k a s₁ = .error f s' := by
  change EStateM.bind m k s = _ at h
  unfold EStateM.bind at h
  split at h
  · exact .inr ⟨_, _, ‹_›, h⟩
  · cases h
    exact .inl ‹_›

theorem modifyGet_apply {α : Type} (g : CompileState → α × CompileState) (s : CompileState) :
    (modifyGet g : Compile α) s = .ok (g s).1 (g s).2 :=
  rfl

theorem leaveFunction_cons {s : CompileState} {outer : FunctionState} {around : List FunctionState}
    (h : s.enclosing = outer :: around) :
    leaveFunction s = .ok s.current.chunk { s with current := outer, enclosing := around } := by
  unfold leaveFunction
  rw [modifyGet_apply, h]

theorem leaveFunction_nil {s : CompileState} (h : s.enclosing = []) :
    leaveFunction s = .ok s.current.chunk { s with current := .script, enclosing := [] } := by
  unfold leaveFunction
  rw [modifyGet_apply, h]

/-- A step keeps code sound and extends it, or fails for a reason in the text; see the head of
the module. -/
def Keeps {α : Type} (P : Chunk → Prop) (m : Compile α) (Q : α → Chunk → Prop) : Prop :=
  ∀ s, s.current.Sound → P s.current.chunk →
    (∀ a s', m s = .ok a s' → s'.current.Sound ∧ s'.enclosing = s.enclosing ∧
      s.current.chunk.Extends s'.current.chunk ∧ Q a s'.current.chunk) ∧
    ∀ f s', m s = .error f s' → f.OfText

/-- A property of chunks in the making that lasts while they grow. -/
def Lasting (P : Chunk → Prop) : Prop :=
  ∀ c d : Chunk, c.Extends d → P c → P d

theorem lasting_true : Lasting fun _ => True := fun _ _ _ _ => trivial

theorem lasting_landing (t : Nat) : Lasting (·.Landing t) := fun _ _ h => h.landing t

theorem lasting_name (k : Int) (s : String) : Lasting (·.nameAt? k = some s) :=
  fun _ _ h hk => h.nameAt hk

theorem Lasting.and {P Q : Chunk → Prop} (hP : Lasting P) (hQ : Lasting Q) :
    Lasting fun c => P c ∧ Q c :=
  fun c d h hc => ⟨hP c d h hc.1, hQ c d h hc.2⟩

namespace Keeps

variable {α β : Type} {P P' : Chunk → Prop} {Q Q' : α → Chunk → Prop} {m : Compile α}

/-- The rule of a step that always succeeds. -/
theorem of_ok (h : ∀ s, s.current.Sound → P s.current.chunk → ∃ a s', m s = .ok a s' ∧
    s'.current.Sound ∧ s'.enclosing = s.enclosing ∧
      s.current.chunk.Extends s'.current.chunk ∧ Q a s'.current.chunk) : Keeps P m Q := by
  intro s hs hP
  obtain ⟨a, s', hm, hkept⟩ := h s hs hP
  constructor
  · intro b s₁ h₁
    rw [hm] at h₁
    cases h₁
    exact hkept
  · intro f s₁ h₁
    rw [hm] at h₁
    cases h₁

theorem bind {k : α → Compile β} {R : β → Chunk → Prop} (hm : Keeps P m Q)
    (hk : ∀ a, Keeps (Q a) (k a) R) : Keeps P (m >>= k) R := by
  intro s hs hP
  obtain ⟨hok, herr⟩ := hm s hs hP
  constructor
  · intro b s' h
    obtain ⟨a, s₁, h₁, h₂⟩ := bind_eq_ok h
    obtain ⟨hs₁, he₁, hx₁, hQ⟩ := hok a s₁ h₁
    obtain ⟨hs₂, he₂, hx₂, hR⟩ := (hk a s₁ hs₁ hQ).1 b s' h₂
    exact ⟨hs₂, he₂.trans he₁, hx₁.trans hx₂, hR⟩
  · intro f s' h
    rcases bind_eq_error h with h | ⟨a, s₁, h₁, h₂⟩
    · exact herr f s' h
    · obtain ⟨hs₁, -, -, hQ⟩ := hok a s₁ h₁
      exact (hk a s₁ hs₁ hQ).2 f s' h₂

theorem pure {a : α} (h : ∀ c, P c → Q a c) : Keeps P (pure a : Compile α) Q :=
  of_ok fun s hs hP => ⟨a, s, rfl, hs, rfl, .refl _, h _ hP⟩

theorem consequence (h : Keeps P m Q) (hP : ∀ c, P' c → P c) (hQ : ∀ a c, Q a c → Q' a c) :
    Keeps P' m Q' := by
  intro s hs hp
  obtain ⟨hok, herr⟩ := h s hs (hP _ hp)
  refine ⟨fun a s' hm => ?_, herr⟩
  obtain ⟨hs', he, hx, hq⟩ := hok a s' hm
  exact ⟨hs', he, hx, hQ _ _ hq⟩

/-- A fact that holds whatever the code is can be assumed. -/
theorem assume {F : Prop} (h : F → Keeps P m Q) : Keeps (fun c => F ∧ P c) m Q :=
  fun s hs hp => h hp.1 s hs hp.2

/-- Forgets what a step needs and gives. -/
theorem drop (h : Keeps (fun _ => True) m Q) : Keeps P m fun _ _ => True :=
  h.consequence (fun _ _ => trivial) fun _ _ _ => trivial

/-- Carries a lasting property past a step. -/
theorem lift (h : Keeps (fun _ => True) m Q) (hP : Lasting P) :
    Keeps P m fun a c => Q a c ∧ P c := by
  intro s hs hp
  obtain ⟨hok, herr⟩ := h s hs trivial
  refine ⟨fun a s' hm => ?_, herr⟩
  obtain ⟨hs', he, hx, hq⟩ := hok a s' hm
  exact ⟨hs', he, hx, hq, hP _ _ hx hp⟩

/-- Carries a lasting property past a step and forgets what the step gives. -/
theorem carry (h : Keeps (fun _ => True) m Q) (hP : Lasting P) : Keeps P m fun _ => P :=
  (h.lift hP).consequence (fun _ h => h) fun _ _ h => h.2

theorem ite {c : Prop} [Decidable c] {m₁ m₂ : Compile α} (h₁ : c → Keeps P m₁ Q)
    (h₂ : ¬c → Keeps P m₂ Q) : Keeps P (if c then m₁ else m₂) Q := by
  split
  · exact h₁ ‹_›
  · exact h₂ ‹_›

end Keeps

theorem keeps_throw {α : Type} {P : Chunk → Prop} {Q : α → Chunk → Prop} {f : Failure}
    (hf : f.OfText) : Keeps P (throw f : Compile α) Q :=
  fun _ _ _ => ⟨fun _ _ h => (by cases h), fun _ _ h => by cases h; exact hf⟩

theorem keeps_exhausted {α : Type} {P : Chunk → Prop} {Q : α → Chunk → Prop} :
    Keeps P (throw .exhausted : Compile α) Q :=
  keeps_throw trivial

theorem keeps_fail {α : Type} {P : Chunk → Prop} {Q : α → Chunk → Prop} (cause : GrammarFault)
    (place : Position) : Keeps P (fail cause place : Compile α) Q :=
  keeps_throw ⟨nofun, place, rfl⟩

end Compile

/-! ## Tokens -/

theorem Lexer.kindOf_error {l : Lexer} {rule : LexRule} {text : List Char} {start : Nat}
    {e : ScriptError} (h : l.kindOf rule text start = .error e) :
    ∃ cause place, e = .lexical cause place := by
  unfold kindOf at h
  cases rule with
  | number | fraction =>
    dsimp only at h
    cases hread : Number.read? text <;> rw [hread] at h <;> cases h
    exact ⟨_, _, rfl⟩
  | quoted quote =>
    dsimp only at h
    cases hbody : unescapeBody text.tail.dropLast (start + 1) <;> rw [hbody] at h <;> cases h
    exact ⟨_, _, rfl⟩
  | unclosed quote =>
    cases h
    exact ⟨_, _, rfl⟩
  | word =>
    dsimp only at h
    split at h <;> cases h
  | sign =>
    dsimp only at h
    split at h <;> cases h
  | _ => cases h

/-- The lexer fails for lexical reasons. -/
theorem Lexer.next_error {l l' : Lexer} {e : ScriptError} (h : l.next = (.error e, l')) :
    ∃ cause place, e = .lexical cause place := by
  unfold next at h
  split at h
  · cases h
  · unfold fetch at h
    split at h
    · cases h
    · split at h
      · cases h
      · cases h
        exact ⟨_, _, rfl⟩
      · dsimp only at h
        split at h
        · rename_i hkind
          cases h
          exact kindOf_error hkind
        · cases h

namespace Compile

variable {P : Chunk → Prop}

theorem next_apply (s : CompileState) : next s =
    match s.lexer.next with
    | (.ok t, lexer) => .ok t { s with lexer, position := t.position }
    | (.error e, _) => EStateM.Result.error (.error e) s := by
  change (match s.lexer.next with
    | (.ok t, lexer) => (do set { s with lexer, position := t.position }; return t : Compile Token)
    | (.error e, _) => throw (Failure.error e)) s = _
  rcases s.lexer.next with ⟨_ | t, l⟩ <;> rfl

theorem keeps_next : Keeps P next fun _ => P := by
  intro s hs hP
  rw [next_apply]
  rcases hn : s.lexer.next with ⟨e | t, l⟩
  · obtain ⟨cause, place, rfl⟩ := Lexer.next_error hn
    refine ⟨fun _ _ h => (by cases h), fun f s' h => ?_⟩
    cases h
    exact ⟨nofun, place, rfl⟩
  · refine ⟨fun _ _ h => ?_, fun _ _ h => (by cases h)⟩
    cases h
    exact ⟨hs, rfl, .refl _, hP⟩

theorem keeps_pushBack (t : Token) : Keeps P (pushBack t) fun _ => P :=
  .of_ok fun _ hs hP => ⟨_, _, rfl, hs, rfl, .refl _, hP⟩

theorem keeps_expect (kind : Token.Kind) : Keeps P (expect kind) fun _ => P :=
  keeps_next.bind fun _ => .ite (fun _ => .pure fun _ h => h) fun _ => keeps_fail _ _

theorem keeps_atTerminator : Keeps P atTerminator fun _ => P :=
  keeps_next.bind fun t => (keeps_pushBack t).bind fun _ => .pure fun _ h => h

theorem keeps_get : Keeps P (get : Compile CompileState) fun _ => P :=
  .of_ok fun _ hs hP => ⟨_, _, rfl, hs, rfl, .refl _, hP⟩

/-! ## Emission -/

/-- The rule of a change of the current chunk. -/
theorem keeps_modifyChunk {f : Chunk → Chunk} {Q : Chunk → Prop}
    (h : ∀ c, c.Sound → P c → (f c).Sound ∧ c.Extends (f c) ∧ Q (f c)) :
    Keeps P (modifyChunk f) fun _ => Q := by
  refine .of_ok fun s hs hP => ?_
  obtain ⟨h₁, h₂, h₃⟩ := h _ hs.code hP
  exact ⟨_, _, rfl, ⟨h₁, hs.next, hs.locals⟩, rfl, h₂, h₃⟩

theorem keeps_here : Keeps P here fun n c => c.Landing n ∧ P c :=
  .of_ok fun _ hs hP => ⟨_, _, rfl, hs, rfl, .refl _, Chunk.landing_size _, hP⟩

/-- The rule of emission. -/
theorem keeps_emitAt (hP : Lasting P) {place : Position} {op : Op} {a b c : Int}
    (h : ∀ d : Chunk, d.Sound → P d → d.Admits ⟨op, a, b, c, place⟩) :
    Keeps P (emitAt place op a b c) fun n d => d.code[n]? = some ⟨op, a, b, c, place⟩ ∧ P d := by
  refine .of_ok fun s hs hp => ?_
  have hadm := h _ hs.code hp
  have hext : s.current.chunk.Extends (s.current.chunk.emit ⟨op, a, b, c, place⟩) :=
    Chunk.extends_emit hadm.plain
  exact ⟨_, _, rfl, ⟨hs.code.emit hadm, hs.next, hs.locals⟩, rfl, hext,
    Chunk.getElem?_emit_self _ _, hP _ _ hext hp⟩

/-- Emission where nothing is asked about the new instruction. -/
theorem keeps_emitAt_forget (hP : Lasting P) {place : Position} {op : Op} {a b c : Int}
    (h : ∀ d : Chunk, d.Sound → P d → d.Admits ⟨op, a, b, c, place⟩) :
    Keeps P (emitAt place op a b c) fun _ => P :=
  (keeps_emitAt hP h).consequence (fun _ h => h) fun _ _ h => h.2

theorem keeps_emit (hP : Lasting P) {op : Op} {a b c : Int}
    (h : ∀ (d : Chunk) place, d.Sound → P d → d.Admits ⟨op, a, b, c, place⟩) :
    Keeps P (emit op a b c) fun _ => P :=
  keeps_get.bind fun s => keeps_emitAt_forget hP fun d => h d s.position

end Compile

/-- Whether an operation has registers as its only operands, and takes no function. -/
def Op.isPlain : Op → Bool
  | .loadConst | .jump | .jumpFalse | .jumpTrue | .makeFunc | .bindClosure | .newObject
  | .registerLocal | .captureUpvalue => false
  | _ => true

namespace Chunk

theorem admits_plain {op : Op} (h : op.isPlain = true) (c : Chunk) (a b e : Int)
    (place : Position) : c.Admits ⟨op, a, b, e, place⟩ := by
  have hname : (⟨op, a, b, e, place⟩ : Instruction).name? = none := by
    cases op <;> first | rfl | cases h
  refine ⟨?_, fun k hk => ?_, fun k hk => ?_, fun t ht => ?_, fun hop => ?_⟩
  · cases op <;> first | rfl | cases h
  · have hnone : (⟨op, a, b, e, place⟩ : Instruction).constant? = none := by
      cases op <;> first | rfl | cases h
    rw [hnone] at hk
    cases hk
  · rw [hname] at hk
    cases hk
  · have hnone : (⟨op, a, b, e, place⟩ : Instruction).target? = none := by
      cases op <;> first | rfl | cases h
    rw [hnone] at ht
    cases ht
  · cases hop
    cases h

/-- The start of sound code is a landing. -/
theorem Sound.landing_zero {c : Chunk} (hc : c.Sound) : c.Landing 0 := by
  refine ⟨Nat.zero_le _, fun i hi => ?_⟩
  by_contra h
  obtain ⟨j, hpos, -⟩ := (hc.fits 0 i hi).filled (by simpa using h)
  exact absurd hpos (lt_irrefl 0)

theorem admits_jump {c : Chunk} {t : Nat} (ht : c.Landing t) (place : Position) :
    c.Admits ⟨.jump, t, 0, 0, place⟩ :=
  ⟨rfl, nofun, nofun, fun _ hu => ⟨t, (Option.some.inj hu).symm, ht⟩, nofun⟩

theorem admits_jumpIf {c : Chunk} {op : Op} (hop : op = .jumpFalse ∨ op = .jumpTrue) {t : Nat}
    (ht : c.Landing t) (r : Int) (place : Position) : c.Admits ⟨op, r, t, 0, place⟩ := by
  rcases hop with rfl | rfl <;>
    exact ⟨rfl, nofun, nofun, fun _ hu => ⟨t, (Option.some.inj hu).symm, ht⟩, nofun⟩

theorem admits_registerLocal {c : Chunk} {k : Int} {s : String} (hk : c.nameAt? k = some s)
    {r : Int} (hr : r < 0) (place : Position) : c.Admits ⟨.registerLocal, r, k, 0, place⟩ :=
  ⟨rfl, fun _ h => by cases h; exact constantAt?_isSome_of_nameAt? hk,
    fun _ h => by cases h; rw [hk]; rfl, nofun, fun _ => hr⟩

theorem admits_captureUpvalue {c : Chunk} {k : Int} {s : String} (hk : c.nameAt? k = some s)
    (place : Position) : c.Admits ⟨.captureUpvalue, k, 0, 0, place⟩ :=
  ⟨rfl, fun _ h => by cases h; exact constantAt?_isSome_of_nameAt? hk,
    fun _ h => by cases h; rw [hk]; rfl, nofun, nofun⟩

theorem admits_newObject {c : Chunk} {k : Int} (hk : k = -1 ∨ (c.nameAt? k).isSome) (dest : Int)
    (place : Position) : c.Admits ⟨.newObject, dest, dest, k, place⟩ := by
  have hname : ∀ n, (⟨.newObject, dest, dest, k, place⟩ : Instruction).name? = some n →
      n = k ∧ (c.nameAt? k).isSome := by
    intro n hn
    simp only [Instruction.name?] at hn
    split at hn
    · cases hn
    · exact ⟨(Option.some.inj hn).symm, hk.resolve_left ‹_›⟩
  refine ⟨rfl, fun n hn => ?_, fun n hn => ?_, nofun, nofun⟩
  · obtain ⟨rfl, hs⟩ := hname n hn
    obtain ⟨s, hs⟩ := Option.isSome_iff_exists.1 hs
    exact constantAt?_isSome_of_nameAt? hs
  · obtain ⟨rfl, hs⟩ := hname n hn
    exact hs

end Chunk

namespace Compile

variable {P : Chunk → Prop}

/-! ## Constants -/

theorem constant_apply (k : Constant) (s : CompileState) :
    constant k s = .ok ((s.current.chunk.addConstant k).2 : Int)
      { s with current := { s.current with chunk := (s.current.chunk.addConstant k).1 } } := rfl

theorem keeps_constant (hP : Lasting P) {k : Constant} (hk : Chunk.Pooled k) :
    Keeps P (constant k) fun n c => (c.constantAt? n).isSome ∧ P c := by
  refine .of_ok fun s hs hp => ?_
  have hext := Chunk.extends_addConstant s.current.chunk k
  obtain ⟨k', hk', -⟩ := Chunk.addConstant_found s.current.chunk k
  refine ⟨_, _, constant_apply k s, ⟨hs.code.addConstant hk, hs.next, hs.locals⟩, rfl, hext, ?_,
    hP _ _ hext hp⟩
  rw [Chunk.constantAt?_natCast, hk']
  rfl

theorem keeps_name (hP : Lasting P) (t : String) :
    Keeps P (name t) fun k c => c.nameAt? k = some t ∧ P c := by
  refine .of_ok fun s hs hp => ?_
  have hext := Chunk.extends_addConstant s.current.chunk (.value (.str t))
  exact ⟨_, _, constant_apply _ s, ⟨hs.code.addConstant trivial, hs.next, hs.locals⟩, rfl, hext,
    Chunk.addConstant_name _ _, hP _ _ hext hp⟩

theorem keeps_template (hP : Lasting P) {inner : Chunk}
    (hw : ∀ d, inner.Contains d → d.WellFormed) :
    Keeps P (constant (.template inner)) fun k c =>
      c.constantAt? k = some (.template inner) ∧ P c := by
  refine .of_ok fun s hs hp => ?_
  have hext := Chunk.extends_addConstant s.current.chunk (.template inner)
  exact ⟨_, _, constant_apply _ s, ⟨hs.code.addConstant hw, hs.next, hs.locals⟩, rfl, hext,
    Chunk.addConstant_template _ _, hP _ _ hext hp⟩

theorem keeps_loadConst (hP : Lasting P) (k dest : Int) (place : Position) :
    Keeps (fun c => (c.constantAt? k).isSome ∧ P c) (emitAt place .loadConst dest k)
      fun _ => P := by
  have hlast : Lasting fun c => (c.constantAt? k).isSome ∧ P c := by
    refine Lasting.and (fun c d h hk => ?_) hP
    obtain ⟨v, hv⟩ := Option.isSome_iff_exists.1 hk
    rw [h.constantAt hv]
    rfl
  exact (keeps_emitAt_forget hlast fun _ _ h => Chunk.admits_loadConst h.1 _ _).consequence
    (fun _ h => h) fun _ _ h => h.2

/-- Loads a name that is known to be a constant. -/
theorem keeps_loadName (hP : Lasting P) (k dest : Int) (t : String) (place : Position) :
    Keeps (fun c => c.nameAt? k = some t ∧ P c) (emitAt place .loadConst dest k)
      fun _ c => c.nameAt? k = some t ∧ P c :=
  keeps_emitAt_forget ((lasting_name k t).and hP) fun _ _ h =>
    Chunk.admits_loadConst (Chunk.constantAt?_isSome_of_nameAt? h.1) _ _

/-! ## Rewriting -/

/-- The load that an operand refers to is in the code. -/
def Loaded (c : Chunk) : Operand → Prop
  | .slot _ load => ∃ i, c.code[load]? = some i ∧ i.op = .copy
  | .member receiver key load =>
    ∃ i, c.code[load]? = some i ∧ i.op = .dot ∧ i.b = receiver ∧ i.c = key
  | _ => True

theorem keeps_patch (hP : Lasting P) (index t : Nat) :
    Keeps (fun c => c.Landing t ∧ P c) (patch index t) fun _ c => c.Landing t ∧ P c :=
  keeps_modifyChunk fun c hc h => by
    obtain ⟨hs, hext⟩ := hc.patchJump h.1 index
    exact ⟨hs, hext, hext.landing _ h.1, hP _ _ hext h.2⟩

theorem keeps_erase {load : Nat} (h : ∀ c, P c → ∃ i, c.code[load]? = some i ∧
    i.op ≠ .loadConst ∧ i.op ≠ .makeFunc) : Keeps P (erase load) fun _ _ => True :=
  keeps_modifyChunk fun c hc hp => by
    have hrep : ∀ i, c.code[load]? = some i → c.Replaces i { i with op := .nop } := by
      intro i hi
      obtain ⟨j, hj, hop⟩ := h c hp
      obtain rfl : i = j := Option.some.inj (hi.symm.trans hj)
      exact ⟨hop, nofun, Chunk.admits_plain rfl _ _ _ _ _⟩
    exact ⟨hc.modifyAt fun i hi => .inr (hrep i hi),
      Chunk.extends_modifyAt fun i hi => .inr (hrep i hi), trivial⟩

theorem keeps_erase_slot (register : Int) (load : Nat) :
    Keeps (Loaded · (.slot register load)) (erase load) fun _ _ => True :=
  keeps_erase fun _ ⟨i, hi, hop⟩ => ⟨i, hi, by simp [hop], by simp [hop]⟩

theorem keeps_erase_member (receiver key : Int) (load : Nat) :
    Keeps (Loaded · (.member receiver key load)) (erase load) fun _ _ => True :=
  keeps_erase fun _ ⟨i, hi, hop, _⟩ => ⟨i, hi, by simp [hop], by simp [hop]⟩

theorem registers_dot {i : Instruction} (h : i.op = .dot) : i.registers = [i.a, i.b, i.c] := by
  simp [Instruction.registers, Op.registerOperands, h]

theorem keeps_retarget (dest receiver key : Int) (load : Nat) :
    Keeps (Loaded · (.member receiver key load)) (retarget load dest receiver key)
      fun _ _ => True := by
  refine (keeps_modifyChunk (Q := fun _ => True) fun c hc hp => ?_).bind fun _ =>
    .pure fun _ _ => trivial
  obtain ⟨j, hj, hop, hb, hk⟩ := hp
  set t := above dest receiver key with ht
  have hd : (c.reserve (t + 1)).Sound := hc.reserve _
  have hrep : ∀ i, c.code[load]? = some i → (c.reserve (t + 1)).Replaces i { i with a := t } := by
    intro i hi
    obtain rfl : i = j := Option.some.inj (hi.symm.trans hj)
    refine ⟨⟨by simp [hop], by simp [hop]⟩, fun r hr => ?_, ?_⟩
    · have hold := (hd.fits load i hi).registers
      rw [registers_dot hop] at hold
      rw [registers_dot (by exact hop)] at hr
      simp only [List.mem_cons, List.not_mem_nil, or_false] at hr hold
      rcases hr with rfl | rfl | rfl
      · -- The new register lies above the old operands and below the reserved end.
        have hlow := (hold _ (.inr (.inl rfl))).1
        have htop : t + 1 + 1 ≤ (c.reserve (t + 1)).tempCount := Int.le_max_right _ _
        have hge : i.b ≤ t := by
          rw [ht, above, hb]
          omega
        constructor <;> omega
      · exact hold _ (.inr (.inl rfl))
      · exact hold _ (.inr (.inr rfl))
    · obtain ⟨op, a, b, e, place⟩ := i
      cases hop
      exact Chunk.admits_plain rfl _ _ _ _ _
  have hsound := hd.modifyAt (f := fun i => { i with a := t }) fun i hi => .inr (hrep i hi)
  exact ⟨hsound, (Chunk.extends_reserve c (t + 1)).trans
    (Chunk.extends_modifyAt fun i hi => .inr (hrep i hi)), trivial⟩

/-- Turns a member load into the deletion of that member. -/
theorem keeps_replace_delete (receiver key : Int) (load : Nat) (place : Position) :
    Keeps (Loaded · (.member receiver key load))
      (modifyChunk (·.modifyAt load fun _ =>
        { op := .delete, a := receiver, b := key, c := 0, position := place })) fun _ _ => True :=
  keeps_modifyChunk fun c hc hp => by
    obtain ⟨j, hj, hop, rfl, rfl⟩ := hp
    have hrep : ∀ i, c.code[load]? = some i → c.Replaces i ⟨.delete, j.b, j.c, 0, place⟩ := by
      intro i hi
      obtain rfl : i = j := Option.some.inj (hi.symm.trans hj)
      refine ⟨⟨by simp [hop], by simp [hop]⟩, fun r hr => ?_, Chunk.admits_plain rfl _ _ _ _ _⟩
      have hold := (hc.fits load i hi).registers
      rw [registers_dot hop] at hold
      apply hold
      simp only [Instruction.registers, Op.registerOperands, if_true, Bool.false_eq_true, if_false,
        List.append_nil, List.singleton_append, List.mem_cons, List.not_mem_nil, or_false] at hr
      simp only [List.mem_cons, List.not_mem_nil, or_false]
      exact .inr hr
    exact ⟨hc.modifyAt fun i hi => .inr (hrep i hi),
      Chunk.extends_modifyAt fun i hi => .inr (hrep i hi), trivial⟩

/-! ## Blocks, loops and functions -/

theorem keeps_modifyCurrent {g : FunctionState → FunctionState}
    (h : ∀ f, (g f).chunk = f.chunk) (hg : ∀ f, f.Sound → (g f).Sound) :
    Keeps P (modifyCurrent g) fun _ => P := by
  refine .of_ok fun s hs hp => ⟨_, _, rfl, hg _ hs, rfl, ?_⟩
  show s.current.chunk.Extends (g s.current).chunk ∧ P (g s.current).chunk
  rw [h]
  exact ⟨.refl _, hp⟩

theorem keeps_openBlock : Keeps P (modifyCurrent (·.openBlock)) fun _ => P :=
  keeps_modifyCurrent (fun _ => rfl) fun _ hf => ⟨hf.code, hf.next, by
    intro block hb
    rcases List.mem_cons.1 hb with rfl | hb
    · exact fun _ h => absurd h List.not_mem_nil
    · exact hf.locals block hb⟩

theorem keeps_closeBlock : Keeps P (modifyCurrent (·.closeBlock)) fun _ => P :=
  keeps_modifyCurrent (fun _ => rfl) fun _ hf =>
    ⟨hf.code, hf.next, fun block hb => hf.locals block (List.mem_of_mem_tail hb)⟩

theorem keeps_openLoop : Keeps P openLoop fun _ => P :=
  keeps_modifyCurrent (fun _ => rfl) fun _ hf => ⟨hf.code, hf.next, hf.locals⟩

/-- A declaration keeps a function sound, and gives a register below zero. -/
theorem sound_declare {f : FunctionState} (hf : f.Sound) (t : String) :
    (f.declare t).1.Sound ∧ f.chunk.Extends (f.declare t).1.chunk ∧ (f.declare t).2 < 0 := by
  have hnext := hf.next
  have hown : ∀ (block : Block) (outer : List Block), (∀ x ∈ block, x.2 < 0) →
      (∀ b ∈ outer, ∀ x ∈ b, x.2 < 0) →
      ∀ b ∈ ((t, f.nextLocal) :: block) :: outer, ∀ x ∈ b, x.2 < 0 := by
    intro block outer hblock houter b hb x hx
    rcases List.mem_cons.1 hb with rfl | hb
    · rcases List.mem_cons.1 hx with rfl | hx
      · exact hnext
      · exact hblock x hx
    · exact houter b hb x hx
  have hlower : f.nextLocal - 1 < 0 := by omega
  have hext : f.chunk.Extends { f.chunk with localFloor := min f.chunk.localFloor f.nextLocal } :=
    ⟨fun _ h => h, fun _ _ h => h⟩
  unfold FunctionState.declare
  rcases hblocks : f.blocks with _ | ⟨block, outer⟩
  · exact ⟨⟨hf.code.lower _, hlower, hown [] [] (by simp) (by simp)⟩, hext, hnext⟩
  · have hall := hf.locals
    rw [hblocks] at hall
    dsimp only
    split
    · rename_i register hr
      obtain ⟨l₁, l₂, heq, -⟩ := List.lookup_eq_some_iff.1 hr
      exact ⟨hf, .refl _, hall block List.mem_cons_self (t, register) (by rw [heq]; simp)⟩
    · refine ⟨⟨hf.code.lower _, hlower, hown block outer ?_ ?_⟩, hext, hnext⟩
      · exact hall block List.mem_cons_self
      · exact fun b hb => hall b (List.mem_cons_of_mem _ hb)

theorem keeps_declare (hP : Lasting P) (t : String) :
    Keeps P (declare t) fun r c => r < 0 ∧ P c := by
  refine .of_ok fun s hs hp => ?_
  obtain ⟨hs', hext, hr⟩ := sound_declare hs t
  exact ⟨_, _, rfl, hs', rfl, hext, hr, hP _ _ hext hp⟩

theorem sound_function (named : Option String) (params : List String) :
    (FunctionState.function named params).Sound := by
  have hfold : ∀ (params : List String) (f : FunctionState), f.Sound →
      (params.foldl (fun f param => (f.declare param).1) f).Sound := by
    intro params
    induction params with
    | nil => exact fun _ h => h
    | cons t params ih => exact fun f h => ih _ (sound_declare h t).1
  refine hfold params _ ⟨?_, Int.negSucc_lt_zero 0, by simp⟩
  exact ⟨le_refl _, le_refl _, fun n i hi => by simp [Chunk.empty] at hi,
    fun n k hk => by simp [Chunk.empty] at hk⟩

/-- Code of an inner function: the function around it is as before when the inner one is left. -/
theorem Keeps.nested {f : FunctionState} (hf : f.Sound) {m : Compile Unit}
    {Q : Chunk → Prop} (hm : Keeps (fun _ => True) m fun _ => Q) :
    Keeps P (enterFunction f >>= fun _ => m >>= fun _ => leaveFunction) fun inner c =>
      Q inner ∧ P c := by
  intro s hs hp
  obtain ⟨hok, herr⟩ :=
    hm { s with current := f, enclosing := s.current :: s.enclosing } hf trivial
  constructor
  · intro inner s' h
    obtain ⟨_, s₁, h₁, h⟩ := bind_eq_ok h
    cases h₁
    obtain ⟨_, s₂, h₂, h₃⟩ := bind_eq_ok h
    obtain ⟨-, he₂, -, hq⟩ := hok _ _ h₂
    -- Leaving restores the function that was current before.
    obtain ⟨rfl, rfl⟩ : inner = s₂.current.chunk ∧
        s' = { s₂ with current := s.current, enclosing := s.enclosing } := by
      rw [leaveFunction_cons he₂] at h₃
      cases h₃
      exact ⟨rfl, rfl⟩
    exact ⟨hs, rfl, .refl _, hq, hp⟩
  · intro e s' h
    rcases bind_eq_error h with h | ⟨_, s₁, h₁, h⟩
    · cases h
    · cases h₁
      rcases bind_eq_error h with h | ⟨_, s₂, -, h⟩
      · exact herr _ _ h
      · cases h

theorem foldl_patchJump {t : Nat} (indices : List Nat) {c : Chunk} (hc : c.Sound)
    (ht : c.Landing t) : (indices.foldl (fun c n => c.patchJump n t) c).Sound ∧
      c.Extends (indices.foldl (fun c n => c.patchJump n t) c) := by
  induction indices generalizing c with
  | nil => exact ⟨hc, .refl _⟩
  | cons n indices ih =>
    obtain ⟨hs, hext⟩ := hc.patchJump ht n
    obtain ⟨hs', hext'⟩ := ih hs (hext.landing t ht)
    exact ⟨hs', hext.trans hext'⟩

theorem keeps_closeLoop (hP : Lasting P) (exit resume : Nat) :
    Keeps (fun c => c.Landing exit ∧ c.Landing resume ∧ P c) (closeLoop exit resume)
      fun _ => P := by
  refine .of_ok fun s hs hp => ⟨_, _, rfl, ?_⟩
  obtain ⟨he, hr, hp⟩ := hp
  dsimp only
  split
  · exact ⟨hs, rfl, .refl _, hp⟩
  · obtain ⟨hs₁, hext₁⟩ := foldl_patchJump _ hs.code he
    obtain ⟨hs₂, hext₂⟩ := foldl_patchJump _ hs₁ (hext₁.landing _ hr)
    exact ⟨⟨hs₂, hs.next, hs.locals⟩, rfl, hext₁.trans hext₂, hP _ _ (hext₁.trans hext₂) hp⟩

end Compile

/-! ## Whole sources -/

/-- Where the compilation of a source starts. -/
def CompileState.ofText (cs : List Char) : CompileState :=
  { lexer := Lexer.ofText cs }

section Source

variable {source : String} {s : CompileState} {l : Lexer}

theorem compile_of_ok {root : Chunk}
    (h : Compile.script (Compile.productions (compileFuel (Source.normalize source.toList)))
      (CompileState.ofText (Source.normalize source.toList)) = .ok root s) :
    compile source = .ok root := by
  unfold CompileState.ofText at h
  unfold compile EStateM.run
  dsimp only
  rw [h]

theorem compile_of_error {failure : Failure}
    (h : Compile.script (Compile.productions (compileFuel (Source.normalize source.toList)))
      (CompileState.ofText (Source.normalize source.toList)) = .error failure s) :
    compile source = .error failure := by
  unfold CompileState.ofText at h
  unfold compile EStateM.run
  dsimp only
  rw [h]

/-- A source without tokens is compiled to a return at its end. -/
theorem compile_of_next_finish {t : Token}
    (hnext : (Lexer.ofText (Source.normalize source.toList)).next = (.ok t, l))
    (ht : t.kind = .finish) :
    ∃ root, compile source = .ok root ∧
      root.code = #[{ op := .ret, a := resultRegister, b := 0, c := 0, position := t.position }] := by
  have hread := Compile.next_apply (CompileState.ofText (Source.normalize source.toList))
  rw [CompileState.ofText, hnext] at hread
  have hbody (p : Productions) (fuel : Nat) :
      Compile.scriptBody p (fuel + 1) (CompileState.ofText (Source.normalize source.toList)) =
        .ok () { lexer := l, position := t.position } := by
    change (Compile.next >>= _) { lexer := Lexer.ofText (Source.normalize source.toList) } = _
    rw [Compile.bind_apply, hread]
    dsimp only
    rw [if_pos ht]
    rfl
  refine ⟨(Chunk.empty none).emit
    { op := .ret, a := resultRegister, b := 0, c := 0, position := t.position },
    compile_of_ok (s := ?_) ?_, rfl⟩
  rotate_left
  · change (Compile.scriptBody _ (_ + 1) >>= _) _ = _
    rw [Compile.bind_apply, hbody]
    rfl

/-- A source in front of whose first token something is wrong is not compiled. -/
theorem compile_of_next_error {e : ScriptError}
    (hnext : (Lexer.ofText (Source.normalize source.toList)).next = (.error e, l)) :
    compile source = .error (.error e) := by
  have hread := Compile.next_apply (CompileState.ofText (Source.normalize source.toList))
  rw [CompileState.ofText, hnext] at hread
  have hbody (p : Productions) (fuel : Nat) :
      Compile.scriptBody p (fuel + 1) (CompileState.ofText (Source.normalize source.toList)) =
        .error (.error e) (CompileState.ofText (Source.normalize source.toList)) := by
    change (Compile.next >>= _) { lexer := Lexer.ofText (Source.normalize source.toList) } = _
    rw [Compile.bind_apply, hread]
    rfl
  refine compile_of_error (s := CompileState.ofText (Source.normalize source.toList)) ?_
  change (Compile.scriptBody _ (_ + 1) >>= _) _ = _
  rw [Compile.bind_apply, hbody]

end Source

end ScriptEngine
