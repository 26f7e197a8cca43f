import ScriptEngine.Proofs.Compile.Grammar
import ScriptEngine.Proofs.Expression.Reading

/-!
# The code of an expression is a segment

Whatever the tokens of an expression are, its code is appended to the code in front of it, which
does not change, and control enters and leaves it at its two ends only: it holds no return, and its
jumps go forward and not beyond its end. `Segment b H f` says this of the code by which the function
`f` in the making is longer than `b`, apart from the jumps at the indices `H`, whose targets are not
known yet.

`Yields P m Q` is the rule of a step of a compilation: from a function of which `P` holds, a step
that succeeds leads to one of which `Q` holds. There is one such rule for each construct of an
expression, under the assumption that expressions inside of it are segments (`Productions.Adding`).
-/

namespace ScriptEngine

/-- Control goes from an instruction at an index forward, and not beyond an end. -/
structure Instruction.Stays (i : Instruction) (n stop : Nat) : Prop where
  goesOn : i.op ≠ .ret ∧ i.op ≠ .retVoid
  target : ∀ t, i.target? = some t → ∃ m : Nat, t = m ∧ n < m ∧ m ≤ stop

theorem Instruction.Stays.mono {i : Instruction} {n stop stop' : Nat} (h : i.Stays n stop)
    (hle : stop ≤ stop') : i.Stays n stop' := by
  refine ⟨h.goesOn, fun t ht => ?_⟩
  obtain ⟨m, rfl, hn, hm⟩ := h.target t ht
  exact ⟨m, rfl, hn, hm.trans hle⟩

/-- The operations after which the next instruction follows. -/
def Op.goesOn : Op → Bool
  | .jump | .jumpFalse | .jumpTrue | .ret | .retVoid => false
  | _ => true

theorem Instruction.target?_of_goesOn {i : Instruction} (h : i.op.goesOn = true) :
    i.target? = none := by
  obtain ⟨op, a, b, c, place⟩ := i
  cases op <;> first | rfl | cases h

theorem Instruction.stays_of_goesOn {i : Instruction} (h : i.op.goesOn = true) (n stop : Nat) :
    i.Stays n stop := by
  refine ⟨⟨fun hop => ?_, fun hop => ?_⟩, fun t ht => ?_⟩
  · rw [hop] at h
    cases h
  · rw [hop] at h
    cases h
  · rw [target?_of_goesOn h] at ht
    cases ht

namespace FunctionState

/-- The number of instructions. -/
def size (f : FunctionState) : Nat :=
  f.chunk.code.size

/-- The code of a function from the end of another one's on; see the head of the module. -/
structure Segment (b : FunctionState) (H : List Nat) (f : FunctionState) : Prop where
  size : b.size ≤ f.size
  code : ∀ n, n < b.size → f.chunk.code[n]? = b.chunk.code[n]?
  loops : f.loops = b.loops
  stays : ∀ n i, b.size ≤ n → n ∉ H → f.chunk.code[n]? = some i → i.Stays n f.size
  holes : ∀ n ∈ H, b.size ≤ n ∧ ∃ i, f.chunk.code[n]? = some i ∧ i.target?.isSome = true

/-- A segment with code in it. -/
structure Grown (b : FunctionState) (H : List Nat) (f : FunctionState) : Prop
    extends Segment b H f where
  more : b.size < f.size

theorem Segment.refl (b : FunctionState) : b.Segment [] b := by
  refine ⟨le_refl _, fun _ _ => rfl, rfl, fun n i hn _ hi => ?_, by simp⟩
  have hlt : n < b.chunk.code.size := (Array.getElem?_eq_some_iff.1 hi).1
  exact absurd hlt (Nat.not_lt.2 hn)

variable {b f g : FunctionState} {H : List Nat}

/-- The code and the loops are all that matters. -/
theorem Segment.congr (h : b.Segment H f) (hcode : g.chunk.code = f.chunk.code)
    (hloops : g.loops = f.loops) : b.Segment H g := by
  obtain ⟨hsize, hkept, hl, hstays, hholes⟩ := h
  refine ⟨?_, ?_, hloops.trans hl, ?_, ?_⟩ <;> simpa only [FunctionState.size, hcode]

theorem Grown.congr (h : b.Grown H f) (hcode : g.chunk.code = f.chunk.code)
    (hloops : g.loops = f.loops) : b.Grown H g :=
  ⟨h.toSegment.congr hcode hloops, by simpa only [FunctionState.size, hcode] using h.more⟩

/-- An instruction is appended. -/
theorem Segment.push (h : b.Segment H f) {i : Instruction}
    (hcode : g.chunk.code = f.chunk.code.push i) (hloops : g.loops = f.loops)
    {H' : List Nat} (hH : ∀ n, n ∈ H' ↔ n ∈ H ∨ n = f.size ∧ i.target?.isSome = true)
    (hi : i.target?.isSome = false → i.op.goesOn = true) : b.Grown H' g := by
  have hsize : g.size = f.size + 1 := by rw [FunctionState.size, hcode, Array.size_push]; rfl
  have hget : ∀ n, g.chunk.code[n]? = if n = f.size then some i else f.chunk.code[n]? := fun n => by
    rw [hcode, Array.getElem?_push]
    rfl
  have hlt : ∀ n, b.size ≤ n → ∀ j, f.chunk.code[n]? = some j → n < f.size :=
    fun n _ j hj => (Array.getElem?_eq_some_iff.1 hj).1
  refine ⟨⟨by have := h.size; omega, fun n hn => ?_, hloops.trans h.loops, fun n j hn hH' hj => ?_,
    fun n hn => ?_⟩, by have := h.size; omega⟩
  · rw [hget, if_neg (by have := h.size; omega), h.code n hn]
  · rw [hget] at hj
    by_cases heq : n = f.size
    · rw [if_pos heq] at hj
      cases hj
      refine Instruction.stays_of_goesOn (hi (Bool.eq_false_iff.2 fun htarget => ?_)) _ _
      exact hH' ((hH n).2 (.inr ⟨heq, htarget⟩))
    · rw [if_neg heq] at hj
      exact (h.stays n j hn (fun h' => hH' ((hH n).2 (.inl h'))) hj).mono (by omega)
  · rcases (hH n).1 hn with hn | ⟨rfl, htarget⟩
    · obtain ⟨hle, j, hj, htarget⟩ := h.holes n hn
      refine ⟨hle, j, ?_, htarget⟩
      rw [hget, if_neg (Nat.ne_of_lt (hlt n hle j hj)), hj]
    · exact ⟨h.size, i, by rw [hget, if_pos rfl], htarget⟩

/-- An instruction of the segment is replaced by one that stays in it. -/
theorem Grown.modify (h : b.Grown H f) {m : Nat} {F : Instruction → Instruction}
    (hcode : g.chunk.code = f.chunk.code.modify m F) (hloops : g.loops = f.loops)
    (hm : b.size ≤ m) {H' : List Nat} (hsub : ∀ n ∈ H', n ∈ H) (hcover : ∀ n ∈ H, n = m ∨ n ∈ H')
    (hF : ∀ i, f.chunk.code[m]? = some i → (F i).Stays m f.size ∧
      (m ∈ H' → (F i).target?.isSome = true)) : b.Grown H' g := by
  have hsize : g.size = f.size := by rw [FunctionState.size, hcode, Array.size_modify]; rfl
  have hget : ∀ n, g.chunk.code[n]? = if m = n then f.chunk.code[n]?.map F else f.chunk.code[n]? :=
    fun n => by rw [hcode, Array.getElem?_modify]
  refine ⟨⟨hsize ▸ h.size, fun n hn => ?_, hloops.trans h.loops, fun n j hn hH' hj => ?_,
    fun n hn => ?_⟩, hsize ▸ h.more⟩
  · rw [hget, if_neg (by omega), h.code n hn]
  · rw [hget] at hj
    rw [hsize]
    by_cases heq : m = n
    · subst heq
      rw [if_pos rfl] at hj
      obtain ⟨i, hi, rfl⟩ := Option.map_eq_some_iff.1 hj
      exact (hF i hi).1
    · rw [if_neg heq] at hj
      exact h.stays n j hn (fun h' => (hcover n h').elim (Ne.symm heq) hH') hj
  · obtain ⟨hle, i, hi, htarget⟩ := h.holes n (hsub n hn)
    by_cases heq : m = n
    · subst heq
      exact ⟨hle, F i, by rw [hget, if_pos rfl, hi]; rfl, (hF i hi).2 hn⟩
    · exact ⟨hle, i, by rw [hget, if_neg heq, hi], htarget⟩

end FunctionState

/-- The load of an operand is in a segment, and is no jump. -/
def Operand.Inside (b f : FunctionState) (left : Operand) : Prop :=
  ∀ load, left.load? = some load →
    b.size ≤ load ∧ ∃ i, f.chunk.code[load]? = some i ∧ i.op.goesOn = true

namespace Compile

/-- The rule of a step that succeeds; see the head of the module. -/
def Yields {α : Type} (P : FunctionState → Prop) (m : Compile α) (Q : α → FunctionState → Prop) :
    Prop :=
  ∀ s, P s.current → ∀ a s', m s = .ok a s' → Q a s'.current

namespace Yields

variable {α β : Type} {P P' : FunctionState → Prop} {Q Q' : α → FunctionState → Prop}
  {m : Compile α}

theorem bind {k : α → Compile β} {R : β → FunctionState → Prop} (hm : Yields P m Q)
    (hk : ∀ a, Yields (Q a) (k a) R) : Yields P (m >>= k) R := by
  intro s hs b s' h
  obtain ⟨a, s₁, h₁, h₂⟩ := bind_eq_ok h
  exact hk a s₁ (hm s hs a s₁ h₁) b s' h₂

theorem pure {a : α} (h : ∀ f, P f → Q a f) : Yields P (pure a : Compile α) Q := by
  intro s hs b s' heq
  cases heq
  exact h _ hs

theorem consequence (h : Yields P m Q) (hP : ∀ f, P' f → P f) (hQ : ∀ a f, Q a f → Q' a f) :
    Yields P' m Q' :=
  fun s hs a s' hm => hQ a _ (h s (hP _ hs) a s' hm)

theorem ite {c : Prop} [Decidable c] {m₁ m₂ : Compile α} (h₁ : c → Yields P m₁ Q)
    (h₂ : ¬c → Yields P m₂ Q) : Yields P (if c then m₁ else m₂) Q := by
  split
  · exact h₁ ‹_›
  · exact h₂ ‹_›

/-- A step that never succeeds. -/
theorem never (h : ∀ s, ∃ failure s', m s = .error failure s') : Yields P m Q := by
  intro s _ a s' heq
  obtain ⟨failure, s₁, hm⟩ := h s
  rw [hm] at heq
  cases heq

/-- A step that always succeeds. -/
theorem of_ok (h : ∀ s, P s.current → ∃ a s', m s = .ok a s' ∧ Q a s'.current) : Yields P m Q := by
  intro s hs a s' heq
  obtain ⟨b, s₁, hm, hQ⟩ := h s hs
  rw [hm] at heq
  cases heq
  exact hQ

/-- A step that does not change the function in the making. -/
theorem still (h : ∀ s a s', m s = .ok a s' → s'.current = s.current) : Yields P m fun _ => P := by
  intro s hs a s' heq
  rw [h s a s' heq]
  exact hs

end Yields

section Primitive

variable {α : Type} {P : FunctionState → Prop} {Q : α → FunctionState → Prop}

theorem yields_fail (cause : GrammarFault) (place : Position) :
    Yields P (fail cause place : Compile α) Q :=
  .never fun s => ⟨_, s, rfl⟩

theorem yields_exhausted : Yields P (throw .exhausted : Compile α) Q :=
  .never fun s => ⟨_, s, rfl⟩

theorem yields_next : Yields P next fun _ => P := by
  refine .still fun s a s' h => ?_
  rw [next_apply] at h
  split at h
  · cases h
    rfl
  · cases h

theorem yields_pushBack (t : Token) : Yields P (pushBack t) fun _ => P :=
  .still fun _ _ _ h => by cases h; rfl

theorem yields_expect (kind : Token.Kind) : Yields P (expect kind) fun _ => P :=
  yields_next.bind fun _ => .ite (fun _ => .pure fun _ h => h) fun _ => yields_fail _ _

theorem yields_get : Yields P (get : Compile CompileState) fun _ => P :=
  .still fun _ _ _ h => by cases h; rfl

end Primitive

/-- Reading a token does not change the function in the making. -/
theorem next_current {s s' : CompileState} {t : Token} (h : next s = .ok t s') :
    s'.current = s.current :=
  yields_next (P := (· = s.current)) s rfl t s' h

theorem expect_current {s s' : CompileState} {kind : Token.Kind} (h : expect kind s = .ok () s') :
    s'.current = s.current :=
  yields_expect (P := (· = s.current)) kind s rfl () s' h

open FunctionState

variable {b : FunctionState} {H : List Nat}

/-! ## Emission -/

theorem emitAt_apply (place : Position) (op : Op) (x y z : Int) (s : CompileState) :
    emitAt place op x y z s = .ok s.current.size { s with
      current := { s.current with chunk := s.current.chunk.emit ⟨op, x, y, z, place⟩ } } := rfl

theorem yields_emitAt {place : Position} {op : Op} {x y z : Int} (hop : op.goesOn = true) :
    Yields (b.Segment H) (emitAt place op x y z) fun n f =>
      b.Grown H f ∧ b.size ≤ n ∧ ∃ i, f.chunk.code[n]? = some i ∧ i.op.goesOn = true := by
  refine .of_ok fun s hs => ⟨_, _, emitAt_apply place op x y z s, ?_, hs.size, _,
    Array.getElem?_push_size, hop⟩
  refine hs.push (i := ⟨op, x, y, z, place⟩) (by rfl) (by rfl) (fun n => ?_) fun _ => hop
  rw [Instruction.target?_of_goesOn (i := ⟨op, x, y, z, place⟩) hop]
  simp

theorem yields_emit {op : Op} {x y z : Int} (hop : op.goesOn = true) :
    Yields (b.Segment H) (emit op x y z) fun _ => b.Grown H :=
  yields_get.bind fun _ => (yields_emitAt hop).consequence (fun _ h => h) fun _ _ h => h.1

/-- An instruction behind others. -/
theorem yields_more {place : Position} {op : Op} {x y z : Int} (hop : op.goesOn = true) :
    Yields (b.Grown H) (emitAt place op x y z) fun _ => b.Grown H :=
  (yields_emitAt hop).consequence (fun _ h => h.toSegment) fun _ _ h => h.1

/-- A jump whose target is not known yet. -/
theorem yields_jump {place : Position} {op : Op} {x y z : Int}
    (hop : op = .jump ∨ op = .jumpFalse ∨ op = .jumpTrue) :
    Yields (b.Segment H) (emitAt place op x y z) fun n => b.Grown (n :: H) := by
  have htarget : (⟨op, x, y, z, place⟩ : Instruction).target?.isSome = true := by
    rcases hop with rfl | rfl | rfl <;> rfl
  refine .of_ok fun s hs => ⟨_, _, emitAt_apply place op x y z s, ?_⟩
  refine hs.push (i := ⟨op, x, y, z, place⟩) (by rfl) (by rfl) (fun n => ?_) fun h => ?_
  · rw [List.mem_cons, htarget, or_comm]
    simp
  · rw [htarget] at h
    cases h

/-- A jump behind other instructions. -/
theorem yields_moreJump {place : Position} {op : Op} {x y z : Int}
    (hop : op = .jump ∨ op = .jumpFalse ∨ op = .jumpTrue) :
    Yields (b.Grown H) (emitAt place op x y z) fun n => b.Grown (n :: H) :=
  (yields_jump hop).consequence (fun _ h => h.toSegment) fun _ _ h => h

/-- The target of a jump becomes known: it is the end of the code. -/
theorem yields_land {n : Nat} (hn : n ∈ H) {H' : List Nat} (hsub : ∀ m ∈ H', m ∈ H)
    (hcover : ∀ m ∈ H, m = n ∨ m ∈ H') :
    Yields (b.Grown H) (here >>= fun target => patch n target) fun _ => b.Grown H' := by
  refine .of_ok fun s hs => ⟨(), _, rfl, ?_⟩
  obtain ⟨hle, i, hi, htarget⟩ := hs.holes n hn
  have hlt : n < s.current.size := (Array.getElem?_eq_some_iff.1 hi).1
  refine hs.modify (F := (·.aim s.current.size)) (by rfl) (by rfl) hle hsub hcover
    fun j hj => ?_
  obtain rfl : i = j := Option.some.inj (hi.symm.trans hj)
  obtain ⟨op, x, y, z, place⟩ := i
  cases op <;> first
    | exact absurd htarget Bool.false_ne_true
    | exact ⟨⟨⟨nofun, nofun⟩, fun t ht =>
        ⟨s.current.size, (Option.some.inj ht).symm, hlt, le_refl _⟩⟩, fun _ => rfl⟩

theorem yields_landing {β : Type} {n : Nat} (hn : n ∈ H) (H' : List Nat) (hsub : ∀ m ∈ H', m ∈ H)
    (hcover : ∀ m ∈ H, m = n ∨ m ∈ H') {k : Unit → Compile β} {R : β → FunctionState → Prop}
    (hk : Yields (b.Grown H') (k ()) R) :
    Yields (b.Grown H) (here >>= fun target => patch n target >>= k) R := by
  have h := (yields_land (b := b) hn hsub hcover).bind fun _ => hk
  rwa [bind_assoc] at h

/-! ## Steps that make no code -/

/-- A step that leaves the code and the loops alone. -/
def Quiet {α : Type} (m : Compile α) : Prop :=
  ∀ s a s', m s = .ok a s' → s'.current.chunk.code = s.current.chunk.code ∧
    s'.current.loops = s.current.loops

theorem Quiet.segment {α : Type} {m : Compile α} (h : Quiet m) :
    Yields (b.Segment H) m fun _ => b.Segment H :=
  fun s hs a s' heq => hs.congr (h s a s' heq).1 (h s a s' heq).2

theorem Quiet.grown {α : Type} {m : Compile α} (h : Quiet m) :
    Yields (b.Grown H) m fun _ => b.Grown H :=
  fun s hs a s' heq => hs.congr (h s a s' heq).1 (h s a s' heq).2

theorem quiet_constant (k : Constant) : Quiet (constant k) := by
  intro s a s' h
  rw [constant_apply] at h
  cases h
  refine ⟨?_, rfl⟩
  show (s.current.chunk.addConstant k).1.code = s.current.chunk.code
  unfold Chunk.addConstant
  split <;> rfl

theorem quiet_declare (t : String) : Quiet (declare t) := by
  intro s a s' h
  cases h
  show ((s.current.declare t).1).chunk.code = _ ∧ ((s.current.declare t).1).loops = _
  unfold FunctionState.declare
  dsimp only
  split <;> exact ⟨rfl, rfl⟩

/-! ## Expressions inside -/

/-- What an expression leaves: code, in which the load of its operand is. -/
def Result (b : FunctionState) (H : List Nat) (left : Operand) (f : FunctionState) : Prop :=
  b.Grown H f ∧ left.Inside b f

/-- What an operator continues: code, maybe none, in which the load of the left operand is. -/
def Begun (b : FunctionState) (H : List Nat) (left : Operand) (f : FunctionState) : Prop :=
  b.Segment H f ∧ left.Inside b f

/-- An operand with a load has code. -/
theorem Begun.result {b f : FunctionState} {H : List Nat} {left : Operand} {load : Nat}
    (h : Begun b H left f) (hload : left.load? = some load) : Result b H left f := by
  obtain ⟨hle, i, hi, -⟩ := h.2 load hload
  exact ⟨⟨h.1, lt_of_le_of_lt hle (Array.getElem?_eq_some_iff.1 hi).1⟩, h.2⟩

end Compile

/-- The expressions that a grammar reads are segments, unless they are statements. -/
structure Productions.Adding (p : Productions) : Prop where
  keeping : p.Keeping
  expression : ∀ (first : Token) (power : Nat) (dest : Int),
    (first.kind.startsStatement = true → Power.expression ≤ power) → ∀ b H,
      Compile.Yields (FunctionState.Segment b H) (p.expression first power dest)
        (Compile.Result b H)

namespace Compile

open FunctionState

variable {b : FunctionState} {H : List Nat} {p : Productions}

theorem yields_temp : Yields (b.Grown H) (pure .temp : Compile Operand) (Result b H) :=
  .pure fun _ h => ⟨h, nofun⟩

/-- An instruction that ends a construct. -/
theorem yields_last {place : Position} {op : Op} {x y z : Int} (hop : op.goesOn = true) :
    Yields (b.Segment H) (emitAt place op x y z >>= fun _ => pure .temp) (Result b H) :=
  ((yields_emitAt hop).consequence (fun _ h => h) fun _ _ h => h.1).bind fun _ => yields_temp

/-- An instruction that ends a construct, behind others. -/
theorem yields_moreLast {place : Position} {op : Op} {x y z : Int} (hop : op.goesOn = true) :
    Yields (b.Grown H) (emitAt place op x y z >>= fun _ => pure .temp) (Result b H) :=
  (yields_last hop).consequence (fun _ h => h.toSegment) fun _ _ h => h

theorem yields_expression (hp : p.Adding) {first : Token} {power : Nat} {dest : Int}
    (hpower : Power.expression ≤ power) :
    Yields (b.Segment H) (p.expression first power dest) (Result b H) :=
  hp.expression first power dest (fun _ => hpower) b H

theorem yields_parse (hp : p.Adding) {power : Nat} {dest : Int}
    (hpower : Power.expression ≤ power) :
    Yields (b.Segment H) (parse p power dest) (Result b H) :=
  yields_next.bind fun _ => yields_expression hp hpower

/-- An operand whose load does not matter. -/
theorem yields_operand (hp : p.Adding) {power : Nat} {dest : Int}
    (hpower : Power.expression ≤ power) :
    Yields (b.Segment H) (parse p power dest) fun _ => b.Grown H :=
  (yields_parse hp hpower).consequence (fun _ h => h) fun _ _ h => h.1

/-- An operand behind other code. -/
theorem yields_moreOperand (hp : p.Adding) {power : Nat} {dest : Int}
    (hpower : Power.expression ≤ power) :
    Yields (b.Grown H) (parse p power dest) fun _ => b.Grown H :=
  (yields_operand hp hpower).consequence (fun _ h => h.toSegment) fun _ _ h => h

/-! ## Names and unary operators -/

theorem yields_loadConstant (v : Value) (dest : Int) (place : Position) :
    Yields (b.Segment H) (loadConstant v dest place) (Result b H) :=
  (quiet_constant _).segment.bind fun _ => yields_last rfl

/-- An instruction that loads an operand. -/
theorem yields_load {place : Position} {op : Op} {x y z : Int} (left : Nat → Operand)
    (hop : op.goesOn = true) (hleft : ∀ n, (left n).load? = some n) :
    Yields (b.Segment H) (emitAt place op x y z >>= fun n => pure (left n)) (Result b H) := by
  refine (yields_emitAt hop).bind fun n => .pure fun f h => ⟨h.1, fun load hload => ?_⟩
  rw [hleft] at hload
  cases hload
  exact h.2

theorem yields_loadName (s : String) (dest : Int) (place : Position) :
    Yields (b.Segment H) (loadName s dest place) (Result b H) := by
  refine yields_get.bind fun state => ?_
  have hload : ∀ k, Yields (b.Segment H) (do
      let _ ← emitAt place .loadConst dest k
      let load ← emitAt place .dot dest 0 dest
      return .member 0 dest load) (Result b H) := fun k =>
    ((yields_emitAt rfl).consequence (fun _ h => h) fun _ _ h => h.1.toSegment).bind fun _ =>
      yields_load (.member 0 dest) rfl fun _ => rfl
  split
  · exact yields_load (.slot _) rfl fun _ => rfl
  · refine (quiet_constant _).segment.bind fun k => ?_
    split
    · exact ((yields_emitAt rfl).consequence (fun _ h => h) fun _ _ h => h.1.toSegment).bind fun _ =>
        hload k
    · exact hload k

theorem yields_unary (hp : p.Adding) {op : Op} (hop : op.goesOn = true) {power : Nat}
    (hpower : Power.expression ≤ power) (dest : Int) (place : Position) :
    Yields (b.Segment H) (unary p op power dest place) (Result b H) :=
  (yields_operand hp hpower).bind fun _ => yields_moreLast hop

theorem yields_paren (hp : p.Adding) (dest : Int) :
    Yields (b.Segment H) (paren p dest) (Result b H) := by
  refine yields_next.bind fun first => ?_
  have hinner : Yields (b.Segment H) (do
      let left ← p.expression first Power.expression dest
      expect (.mark .rParen)
      return left) (Result b H) :=
    (yields_expression hp (le_refl _)).bind fun left =>
      (yields_expect _).bind fun _ => .pure fun _ h => h
  dsimp only
  split
  · rename_i op hop
    refine yields_next.bind fun second => .ite (fun _ => ?_) fun _ =>
      (yields_pushBack _).bind fun _ => hinner
    refine yields_unary hp ?_ (by decide) _ _
    unfold castOp? at hop
    split at hop <;> cases hop <;> rfl
  · exact hinner

/-! ## Lists -/

theorem yields_argumentsFrom (hp : p.Adding) (fuel : Nat) (register : Int) :
    Yields (b.Segment H) (argumentsFrom p register fuel) fun _ => b.Segment H := by
  induction fuel generalizing register with
  | zero => exact yields_exhausted
  | succ fuel ih =>
    refine ((yields_operand hp (by decide)).consequence (fun _ h => h)
      fun _ _ h => h.toSegment).bind fun _ => yields_next.bind fun t => ?_
    exact .ite (fun _ => ih _) fun _ => .ite (fun _ => .pure fun _ h => h) fun _ => yields_fail _ _

theorem yields_arguments (hp : p.Adding) (first : Int) :
    Yields (b.Segment H) (arguments p first) fun _ => b.Segment H :=
  yields_next.bind fun t => .ite (fun _ => .pure fun _ h => h) fun _ =>
    (yields_pushBack t).bind fun _ => yields_argumentsFrom hp _ _

theorem yields_arrayItems (hp : p.Adding) (fuel : Nat) (register : Int) :
    Yields (b.Segment H) (arrayItems p register fuel) fun _ => b.Segment H := by
  induction fuel generalizing register with
  | zero => exact yields_exhausted
  | succ fuel ih =>
    refine yields_next.bind fun t => .ite (fun _ => .pure fun _ h => h) fun _ =>
      .ite (fun _ => ?_) fun _ => ?_
    · exact ((yields_emit rfl).consequence (fun _ h => h) fun _ _ h => h.toSegment).bind fun _ =>
        ih _
    · refine ((yields_expression hp (by decide)).consequence (fun _ h => h)
        fun _ _ h => h.1.toSegment).bind fun _ => yields_next.bind fun t => ?_
      exact .ite (fun _ => ih _) fun _ => .ite (fun _ => .pure fun _ h => h) fun _ => yields_fail _ _

theorem yields_arrayLiteral (hp : p.Adding) (dest : Int) (place : Position) :
    Yields (b.Segment H) (arrayLiteral p dest place) (Result b H) :=
  (yields_arrayItems hp _ _).bind fun _ => yields_last rfl

theorem yields_dictKey (hp : p.Adding) (t : Token) (register : Int) :
    Yields (b.Segment H) (dictKey p t register) fun _ => b.Grown H := by
  have hspelled : Yields (b.Segment H) (do
      let _ ← p.expression t Power.comma register
      let sep ← next
      if sep.kind = .mark .arrow || sep.kind = .mark .colon then return ()
      else fail (.expected (.sign .arrow) sep.kind) sep.position) fun _ => b.Grown H :=
    ((yields_expression hp (by decide)).consequence (fun _ h => h) fun _ _ h => h.1).bind fun _ =>
      yields_next.bind fun _ => .ite (fun _ => .pure fun _ h => h) fun _ => yields_fail _ _
  unfold dictKey
  dsimp only
  split
  · refine yields_next.bind fun behind => .ite (fun _ => ?_) fun _ =>
      (yields_pushBack behind).bind fun _ => hspelled
    exact (quiet_constant _).segment.bind fun _ => (yields_emit rfl).bind fun _ => .pure fun _ h => h
  · exact hspelled

theorem yields_dictEntries (hp : p.Adding) (fuel : Nat) (register : Int) :
    Yields (b.Segment H) (dictEntries p register fuel) fun _ => b.Segment H := by
  induction fuel generalizing register with
  | zero => exact yields_exhausted
  | succ fuel ih =>
    refine yields_next.bind fun t => .ite (fun _ => .pure fun _ h => h) fun _ => ?_
    refine (yields_dictKey hp t register).bind fun _ => ?_
    refine ((yields_moreOperand hp (by decide)).consequence (fun _ h => h)
      fun _ _ h => h.toSegment).bind fun _ => yields_next.bind fun t => ?_
    exact .ite (fun _ => ih _) fun _ => .ite (fun _ => .pure fun _ h => h) fun _ => yields_fail _ _

theorem yields_dictLiteral (hp : p.Adding) (dest : Int) (place : Position) :
    Yields (b.Segment H) (dictLiteral p dest place) (Result b H) :=
  (yields_dictEntries hp _ _).bind fun _ => yields_last rfl

/-! ## Targets -/

/-- The load of an operand is rewritten to an instruction that goes on. -/
theorem yields_rewrite {left : Operand} {load : Nat} (hload : left.load? = some load)
    {F : Instruction → Instruction} {G : Chunk → Chunk}
    (hG : ∀ c : Chunk, (G c).code = c.code.modify load F)
    (hF : ∀ i : Instruction, i.op.goesOn = true → (F i).op.goesOn = true) :
    Yields (Result b H left) (modifyChunk G) fun _ => b.Grown H := by
  refine .of_ok fun s hs => ⟨(), _, rfl, ?_⟩
  obtain ⟨hle, i, hi, hop⟩ := hs.2 load hload
  have hhole : load ∉ H := by
    intro hmem
    obtain ⟨-, j, hj, htarget⟩ := hs.1.holes load hmem
    obtain rfl : i = j := Option.some.inj (hi.symm.trans hj)
    rw [Instruction.target?_of_goesOn hop] at htarget
    cases htarget
  refine hs.1.modify (hG _) (by rfl) hle (fun _ h => h) (fun _ h => .inr h) fun j hj => ?_
  obtain rfl : i = j := Option.some.inj (hi.symm.trans hj)
  exact ⟨Instruction.stays_of_goesOn (hF i hop) _ _, fun h => absurd h hhole⟩

theorem yields_erase {left : Operand} {load : Nat} (hload : left.load? = some load) :
    Yields (Result b H left) (erase load) fun _ => b.Grown H :=
  yields_rewrite hload (F := ({ · with op := .nop })) (fun _ => rfl) fun _ _ => rfl

theorem yields_retarget {left : Operand} {load : Nat} (hload : left.load? = some load)
    (dest receiver key : Int) :
    Yields (Result b H left) (retarget load dest receiver key) fun _ => b.Grown H :=
  (yields_rewrite hload (F := ({ · with a := above dest receiver key })) (fun _ => rfl)
    fun _ h => h).bind fun _ => .pure fun _ h => h

theorem yields_assign (hp : p.Adding) (left : Operand) {op? : Option Op}
    (hop : ∀ op ∈ op?, op.goesOn = true) (dest : Int) (place : Position) :
    Yields (Result b H left) (assign p left op? dest place) (Result b H) := by
  have hpower : Power.expression ≤ Power.assignment - 1 := by decide
  unfold assign
  split
  · exact (yields_erase rfl).bind fun _ => (yields_moreOperand hp hpower).bind fun _ =>
      yields_moreLast rfl
  · refine ((yields_moreOperand hp hpower).consequence (fun _ h => h.1) fun _ _ h => h).bind
      fun _ => ?_
    exact (yields_more (hop _ rfl)).bind fun _ => yields_moreLast rfl
  · exact (yields_erase rfl).bind fun _ => (yields_moreOperand hp hpower).bind fun _ =>
      (yields_more rfl).bind fun _ => yields_moreLast rfl
  · exact (yields_retarget rfl _ _ _).bind fun _ => (yields_moreOperand hp hpower).bind fun _ =>
      (yields_more (hop _ rfl)).bind fun _ => (yields_more rfl).bind fun _ => yields_moreLast rfl
  · exact yields_fail _ _

theorem yields_stepBefore (hp : p.Adding) {op : Op} (hop : op.goesOn = true) (dest : Int)
    (place : Position) : Yields (b.Segment H) (stepBefore p op dest place) (Result b H) := by
  refine (yields_parse hp (by decide)).bind fun left => ?_
  split
  · exact (yields_erase rfl).bind fun _ => yields_moreLast hop
  · exact (yields_retarget rfl _ _ _).bind fun _ => (yields_more hop).bind fun _ =>
      (yields_more rfl).bind fun _ => yields_moreLast rfl
  · exact yields_fail _ _

theorem yields_stepAfter (left : Operand) {op : Op} (hop : op.goesOn = true) (dest : Int)
    (place : Position) : Yields (Result b H left) (stepAfter left op dest place) (Result b H) := by
  unfold stepAfter
  split
  · exact (yields_erase rfl).bind fun _ => yields_moreLast hop
  · exact (yields_retarget rfl _ _ _).bind fun _ => (yields_more hop).bind fun _ =>
      (yields_more rfl).bind fun _ => yields_moreLast rfl
  · exact yields_fail _ _

theorem yields_delete (hp : p.Adding) (dest : Int) (place : Position) :
    Yields (b.Segment H) (delete p dest place) (Result b H) := by
  refine (yields_parse hp (by decide)).bind fun left => ?_
  split
  · exact (yields_erase rfl).bind fun _ => (yields_more rfl).bind fun _ => yields_moreLast rfl
  · exact (yields_rewrite rfl (F := fun _ => ⟨.delete, _, _, 0, place⟩) (fun _ => rfl)
      fun _ _ => rfl).bind fun _ => yields_moreLast rfl
  · exact yields_fail _ _

/-! ## Choices -/

theorem yields_ternary (hp : p.Adding) (dest : Int) (place : Position) :
    Yields (b.Segment H) (ternary p dest place) (Result b H) := by
  refine (yields_jump (.inr (.inl rfl))).bind fun skip => ?_
  refine (yields_moreOperand hp (by decide)).bind fun _ => (yields_expect _).bind fun _ => ?_
  refine (yields_moreJump (.inl rfl)).bind fun exit => ?_
  refine yields_landing (n := skip) (by simp) (exit :: H) (by simp; tauto) (by simp; tauto) ?_
  refine (yields_moreOperand hp (by decide)).bind fun _ => ?_
  exact yields_landing (n := exit) (by simp) H (by simp; tauto) (by simp) yields_temp

theorem yields_shortCircuit (hp : p.Adding) {leave op decided : Op}
    (hleave : leave = .jumpFalse ∨ leave = .jumpTrue) (hop : op.goesOn = true)
    (hdecided : decided.goesOn = true) {power : Nat} (hpower : Power.expression ≤ power)
    (dest : Int) (place : Position) :
    Yields (b.Segment H) (shortCircuit p leave op decided power dest place) (Result b H) := by
  refine (yields_jump (.inr hleave)).bind fun skip => ?_
  refine (yields_moreOperand hp hpower).bind fun _ => (yields_more hop).bind fun _ => ?_
  refine (yields_moreJump (.inl rfl)).bind fun exit => ?_
  refine yields_landing (n := skip) (by simp) (exit :: H) (by simp; tauto) (by simp; tauto) ?_
  refine (yields_more hdecided).bind fun _ => ?_
  exact yields_landing (n := exit) (by simp) H (by simp; tauto) (by simp) yields_temp

/-! ## Continuations -/

theorem yields_dotMember (dest : Int) (place : Position) :
    Yields (b.Segment H) (dotMember dest place) (Result b H) := by
  refine yields_next.bind fun t => ?_
  split
  · refine (quiet_constant _).segment.bind fun _ => ?_
    exact ((yields_emitAt rfl).consequence (fun _ h => h) fun _ _ h => h.1.toSegment).bind fun _ =>
      yields_load (.member dest (dest + 1)) rfl fun _ => rfl
  · exact yields_fail _ _

theorem yields_indexMember (hp : p.Adding) (dest : Int) (place : Position) :
    Yields (b.Segment H) (indexMember p dest place) (Result b H) := by
  refine ((yields_operand hp (by decide)).consequence (fun _ h => h)
    fun _ _ h => h.toSegment).bind fun _ => (yields_expect _).bind fun _ => ?_
  exact yields_load (.member dest (dest + 1)) rfl fun _ => rfl

theorem goesOn_of_binaryOp? {kind : Token.Kind} {op : Op} (h : kind.binaryOp? = some op) :
    op.goesOn = true ∧ Power.expression ≤ kind.leftPower := by
  match kind with
  | .mark m => cases m <;> first | (cases h; decide) | cases h
  | .keyword word => cases word <;> first | (cases h; decide) | cases h
  | .number _ | .str _ | .ident _ | .finish => cases h

theorem goesOn_of_compoundOp? {kind : Token.Kind} {op : Op} (h : kind.compoundOp? = some op) :
    op.goesOn = true := by
  match kind with
  | .mark m => cases m <;> first | (cases h; rfl) | cases h
  | .keyword _ | .number _ | .str _ | .ident _ | .finish => cases h

/-- An operator whose left operand must have been loaded from somewhere. -/
theorem yields_target {left : Operand} {m : Compile Operand}
    (hfail : left.load? = none → ∀ s, ∃ failure s', m s = .error failure s')
    (h : Yields (Result b H left) m (Result b H)) : Yields (Begun b H left) m (Result b H) := by
  intro s hs a s' heq
  rcases hload : left.load? with _ | load
  · obtain ⟨failure, s₁, hm⟩ := hfail hload s
    rw [hm] at heq
    cases heq
  · exact h s (hs.result hload) a s' heq

theorem yields_trailing (hp : p.Adding) (t : Token) (left : Operand) (dest : Int) :
    Yields (Begun b H left) (trailing p t left dest) (Result b H) := by
  have hsegment : ∀ {m : Compile Operand}, Yields (b.Segment H) m (Result b H) →
      Yields (Begun b H left) m (Result b H) :=
    fun h => h.consequence (fun _ h => h.1) fun _ _ h => h
  have hassign : ∀ op? : Option Op, (∀ op ∈ op?, op.goesOn = true) →
      Yields (Begun b H left) (assign p left op? dest t.position) (Result b H) := by
    refine fun op? hop => yields_target (fun hload s => ?_) (yields_assign hp left hop dest _)
    cases left <;> first | exact ⟨_, _, rfl⟩ | cases hload
  have hstep : ∀ {op : Op}, op.goesOn = true →
      Yields (Begun b H left) (stepAfter left op dest t.position) (Result b H) := by
    refine fun hop => yields_target (fun hload s => ?_) (yields_stepAfter left hop dest _)
    cases left <;> first | exact ⟨_, _, rfl⟩ | cases hload
  unfold trailing
  dsimp only
  split
  · rename_i hop
    obtain ⟨hgoes, hpower⟩ := goesOn_of_binaryOp? hop
    exact hsegment ((yields_operand hp hpower).bind fun _ => yields_moreLast hgoes)
  · rename_i op _ hop
    exact hassign _ fun op' h => by cases h; exact goesOn_of_compoundOp? hop
  · split
    · exact hassign none nofun
    · exact hsegment (yields_parse hp (by decide))
    · exact hsegment (yields_ternary hp dest _)
    · rename_i hkind
      refine hsegment (yields_shortCircuit hp (.inl rfl) rfl rfl ?_ dest _)
      rw [hkind]
      decide
    · rename_i hkind
      refine hsegment (yields_shortCircuit hp (.inr rfl) rfl rfl ?_ dest _)
      rw [hkind]
      decide
    · exact hstep rfl
    · exact hstep rfl
    · exact hsegment (yields_dotMember dest _)
    · exact hsegment (yields_indexMember hp dest _)
    · refine hsegment ((yields_arguments hp _).bind fun _ => ?_)
      exact (yields_emit rfl).bind fun _ => yields_temp
    · exact yields_fail _ _

/-! ## Instances -/

theorem yields_classPath (hp : p.Adding) (dest : Int) (fuel : Nat) (fallback : Int) :
    Yields (b.Grown H) (classPath p fallback dest fuel) fun _ => b.Grown H := by
  induction fuel generalizing fallback with
  | zero => exact yields_exhausted
  | succ fuel ih =>
    refine yields_next.bind fun t => .ite (fun _ => ?_) fun _ =>
      (yields_pushBack t).bind fun _ => .pure fun _ h => h
    exact ((yields_trailing hp t .temp dest).consequence (fun _ h => ⟨h.toSegment, nofun⟩)
      fun _ _ h => h.1).bind fun _ => ih _

theorem yields_newInstance (hp : p.Adding) (dest : Int) (place : Position) :
    Yields (b.Segment H) (newInstance p dest place) (Result b H) := by
  refine yields_next.bind fun t => ?_
  have hrest : ∀ fallback : Int, Yields (b.Segment H) (do
      let _ ← p.expression t Power.primary dest
      let fallback ← classPath p fallback dest p.budget
      let _ ← emitAt place .newObject dest dest fallback
      let t ← next
      if t.kind = .mark .lParen then
        let behind ← arguments p (dest + 1)
        let _ ← emitAt place .call dest (dest + 1) behind
      else
        pushBack t
        let _ ← emitAt place .call dest (dest + 1) (dest + 1)
      return .temp) (Result b H) := by
    intro fallback
    refine ((yields_expression hp (by decide)).consequence (fun _ h => h) fun _ _ h => h.1).bind
      fun _ => ?_
    refine (yields_classPath hp dest _ fallback).bind fun _ => (yields_more rfl).bind fun _ =>
      yields_next.bind fun t => ?_
    dsimp only
    split
    · exact ((yields_arguments hp _).consequence (fun _ h => h.toSegment) fun _ _ h => h).bind
        fun _ => yields_last rfl
    · exact (yields_pushBack t).bind fun _ => (yields_more rfl).bind fun _ => yields_temp
  split
  · exact (quiet_constant _).segment.bind fun k => hrest k
  · exact hrest (-1)

/-! ## Functions -/

theorem yields_parameterDefault (hp : p.Adding) (register : Int) (place : Position)
    (behind : Token) (defaults : Bool) :
    Yields (b.Segment H) (parameterDefault p register place behind defaults)
      fun _ => b.Segment H := by
  refine .ite (fun _ => ?_) fun _ => .ite (fun _ => yields_fail _ _) fun _ => ?_
  · exact (yields_operand hp (by decide)).bind fun _ => yields_next.bind fun _ =>
      .pure fun _ h => h.toSegment
  · exact (yields_emitAt rfl).bind fun _ => .pure fun _ h => h.1.toSegment

theorem yields_parameterName (t : Token) (params : List String) {P : FunctionState → Prop} :
    Yields P (parameterName t params) fun _ => P := by
  unfold parameterName
  split
  · exact .ite (fun _ => yields_fail _ _) fun _ => .pure fun _ h => h
  · exact yields_fail _ _

theorem yields_parameters (hp : p.Adding) (dest : Int) (fuel : Nat) (t : Token)
    (params : List String) (defaults : Bool) :
    Yields (b.Segment H) (parameters p dest fuel t params defaults) fun _ => b.Segment H := by
  induction fuel generalizing t params defaults with
  | zero => exact yields_exhausted
  | succ fuel ih =>
    refine (yields_parameterName t params).bind fun param => yields_next.bind fun behind => ?_
    refine (yields_parameterDefault hp _ _ behind defaults).bind fun r => ?_
    exact .ite (fun _ => yields_next.bind fun t => ih t _ _) fun _ =>
      .ite (fun _ => .pure fun _ h => h) fun _ => yields_fail _ _

theorem yields_functionName {P : FunctionState → Prop} : Yields P functionName fun _ => P := by
  refine yields_next.bind fun first => ?_
  split
  · exact yields_next.bind fun _ => .pure fun _ h => h
  · exact .pure fun _ h => h

theorem yields_parameterList (hp : p.Adding) (dest : Int) (t : Token) :
    Yields (b.Segment H) (parameterList p dest t) fun _ => b.Segment H :=
  .ite (fun _ => yields_next.bind fun t => .ite (fun _ => .pure fun _ h => h)
    fun _ => yields_parameters hp dest _ t [] false) fun _ => yields_fail _ _

theorem yields_functionSlot (named : Option String) :
    Yields (b.Segment H) (functionSlot named) fun _ => b.Segment H := by
  refine yields_get.bind fun state => ?_
  split
  · refine .ite (fun _ => .pure fun _ h => h) fun _ => ?_
    rw [map_eq_pure_bind]
    exact (quiet_declare _).segment.bind fun _ => .pure fun _ h => h
  · exact .pure fun _ h => h

/-- The code of an inner function is made apart from that of the function around it. -/
theorem yields_functionChunk (hp : p.Adding) (named : Option String) (params : List String)
    {P : FunctionState → Prop} : Yields P (functionChunk p named params) fun _ => P := by
  refine .still fun s a s' h => ?_
  obtain ⟨_, s₁, h₁, h⟩ := bind_eq_ok h
  cases h₁
  obtain ⟨_, s₂, h₂, h₃⟩ := bind_eq_ok h
  obtain ⟨-, henclosing, -⟩ :=
    (keeps_functionBody hp.keeping params _ (sound_function named params) trivial).1 _ _ h₂
  rw [leaveFunction_cons henclosing] at h₃
  cases h₃
  rfl

theorem yields_makeFunction (chunk : Chunk) (dest : Int) (count : Nat) (place : Position) :
    Yields (b.Segment H) (makeFunction chunk dest count place) fun _ => b.Grown H :=
  (quiet_constant _).segment.bind fun _ =>
    ((yields_emitAt rfl).consequence (fun _ h => h) fun _ _ h => h.1).bind fun _ =>
      (yields_more rfl).bind fun _ => (yields_more rfl).bind fun _ => .pure fun _ h => h

theorem yields_bindFunctionName (s : String) (slot : Option Int) (dest : Int) (place : Position) :
    Yields (b.Grown H) (bindFunctionName s slot dest place) fun _ => b.Grown H := by
  refine (quiet_constant _).grown.bind fun _ => ?_
  split <;> exact (yields_more rfl).bind fun _ => (yields_more rfl).bind fun _ => .pure fun _ h => h

theorem yields_function (hp : p.Adding) (power : Nat) (dest : Int) (place : Position) :
    Yields (b.Segment H) (function p power dest place) (Result b H) := by
  refine yields_functionName.bind fun r => (yields_parameterList hp dest r.2).bind fun params => ?_
  refine (yields_functionSlot r.1).bind fun slot => ?_
  refine (yields_functionChunk hp r.1 params).bind fun chunk => ?_
  refine (yields_makeFunction chunk dest _ place).bind fun _ => ?_
  split
  · exact yields_temp
  · refine (yields_bindFunctionName _ slot dest place).bind fun _ => .pure fun _ h => ⟨h, ?_⟩
    split <;> exact nofun

/-! ## Declarations -/

theorem yields_variableName (t : Token) {P : FunctionState → Prop} :
    Yields P (variableName t) fun _ => P := by
  unfold variableName
  split
  · exact .pure fun _ h => h
  · exact yields_fail _ _

theorem yields_declareVariable (s : String) (k : Int) (place : Position) :
    Yields (b.Segment H) (declareVariable s k place) fun _ => b.Segment H := by
  refine yields_get.bind fun state => .ite (fun _ => .pure fun _ h => h) fun _ => ?_
  exact (quiet_declare s).segment.bind fun _ => (yields_emitAt rfl).bind fun _ =>
    .pure fun _ h => h.1.toSegment

theorem yields_initialise (hp : p.Adding) (slot : Option Int) (k dest : Int) (place : Position)
    (t : Token) : Yields (b.Segment H) (initialise p slot k dest place t) fun _ => b.Grown H := by
  refine .ite (fun _ => (yields_operand hp (by decide)).bind fun _ => Yields.bind ?_ fun _ =>
    yields_next) fun _ => Yields.bind ?_ fun _ => .pure fun _ h => h
  · cases slot with
    | some register =>
      show Yields _ (emitAt place .copy register dest >>= fun _ => pure ()) _
      exact (yields_more rfl).bind fun _ => .pure fun _ h => h
    | none => exact (yields_more rfl).bind fun _ => (yields_more rfl).bind fun _ => .pure fun _ h => h
  · cases slot with
    | some register =>
      show Yields _ (emitAt place .loadVoid register >>= fun _ => pure ()) _
      exact (yields_emitAt rfl).bind fun _ => .pure fun _ h => h.1
    | none =>
      refine ((yields_emitAt rfl).consequence (fun _ h => h) fun _ _ h => h.1).bind fun _ => ?_
      exact (yields_more rfl).bind fun _ => .pure fun _ h => h

theorem yields_declarations (hp : p.Adding) (dest : Int) (fuel : Nat) :
    Yields (b.Segment H) (declarations p dest fuel) (Result b H) := by
  induction fuel with
  | zero => exact yields_exhausted
  | succ fuel ih =>
    refine yields_next.bind fun t => (yields_variableName t).bind fun s => ?_
    refine (quiet_constant _).segment.bind fun k => (yields_declareVariable s k _).bind fun slot => ?_
    refine yields_next.bind fun t' => (yields_initialise hp slot k dest _ t').bind fun t => ?_
    refine .ite (fun _ => ih.consequence (fun _ h => h.toSegment) fun _ _ h => h) fun _ => ?_
    exact .ite (fun _ => (yields_pushBack t).bind fun _ => yields_temp) fun _ => yields_fail _ _

/-! ## Productions -/

theorem yields_leading (hp : p.Adding) (t : Token) (power : Nat) (dest : Int)
    (ht : t.kind.startsStatement = true → Power.expression ≤ power) :
    Yields (b.Segment H) (leading p t power dest) (Result b H) := by
  refine .ite (fun _ => yields_fail _ _) fun hstart => ?_
  have hfalse : t.kind.startsStatement = false := by
    by_contra h
    rw [Bool.not_eq_false] at h
    exact hstart (by simp [h, ht h])
  split
  · exact yields_loadConstant _ _ _
  · exact yields_loadConstant _ _ _
  · exact yields_loadName _ _ _
  · exact yields_fail _ _
  · split
    all_goals first
      | exact yields_paren hp dest
      | exact yields_arrayLiteral hp dest _
      | exact yields_dictLiteral hp dest _
      | exact yields_unary hp rfl (by decide) _ _
      | exact yields_stepBefore hp rfl _ _
      | exact yields_fail _ _
      | (rename_i hkind; rw [hkind] at hfalse; cases hfalse)
  · split
    all_goals first
      | exact yields_last rfl
      | exact yields_unary hp rfl (by decide) _ _
      | exact yields_fail _ _
      | exact yields_function hp power dest _
      | exact yields_newInstance hp dest _
      | exact yields_delete hp dest _
      | (rename_i hkind; rw [hkind] at hfalse; cases hfalse)

theorem yields_climb (hp : p.Adding) (power : Nat) (dest : Int) (fuel : Nat) (left : Operand) :
    Yields (Result b H left) (climb p power dest fuel left) (Result b H) := by
  induction fuel generalizing left with
  | zero => exact yields_exhausted
  | succ fuel ih =>
    refine yields_next.bind fun t => .ite (fun _ => ?_) fun _ => ?_
    · exact (yields_pushBack t).bind fun _ => .pure fun _ h => h
    · exact ((yields_trailing hp t left dest).consequence (fun _ h => ⟨h.1.toSegment, h.2⟩)
        fun _ _ h => h).bind fun left => ih left

/-- Operators behind a statement are a segment, maybe an empty one. -/
theorem yields_appendix (hp : p.Adding) (power : Nat) (dest : Int) (fuel : Nat) {left : Operand}
    (hleft : left.load? = none) :
    Yields (b.Segment H) (climb p power dest fuel left) fun _ => b.Segment H := by
  cases fuel with
  | zero => exact yields_exhausted
  | succ fuel =>
    refine yields_next.bind fun t => .ite (fun _ => (yields_pushBack t).bind fun _ =>
      .pure fun _ h => h) fun _ => ?_
    refine ((yields_trailing hp t left dest).consequence (fun _ h => ⟨h, fun load hload => ?_⟩)
      fun _ _ h => h).bind fun left => ?_
    · rw [hleft] at hload
      cases hload
    · exact (yields_climb hp power dest fuel left).consequence (fun _ h => h)
        fun _ _ h => h.1.toSegment

/-- The whole grammar reads expressions that are segments, however much fuel it has. -/
theorem adding_productions (fuel : Nat) : (productions fuel).Adding := by
  induction fuel with
  | zero => exact ⟨keeping_productions 0, fun _ _ _ _ _ _ => yields_exhausted⟩
  | succ fuel ih =>
    refine ⟨keeping_productions _, fun first power dest ht b H => ?_⟩
    exact (yields_leading ih first power dest ht).bind fun left =>
      .ite (fun _ => .pure fun _ h => h) fun _ => yields_climb ih power dest _ left

/-- Declarations of variables are segments too. -/
theorem yields_expressionWithin (n : Nat) (t : Token) (power : Nat) (dest : Int)
    (ht : t.kind.startsStatement = true → t.kind = .keyword .var) :
    Yields (b.Segment H) (expressionWithin n t power dest) (Result b H) := by
  by_cases hvar : t.kind = .keyword .var
  · obtain ⟨kind, place⟩ := t
    subst hvar
    cases n with
    | zero => exact yields_exhausted
    | succ n =>
      refine Yields.bind (.ite (fun _ => yields_fail _ _) fun _ =>
        yields_declarations (adding_productions n) dest n) fun left => ?_
      exact .ite (fun _ => .pure fun _ h => h) fun _ =>
        yields_climb (adding_productions n) power dest n left
  · exact (adding_productions n).expression t power dest (fun h => absurd (ht h) hvar) b H

end Compile

end ScriptEngine
