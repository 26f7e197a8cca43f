import ScriptEngine.Proofs.Statement.Tree

/-!
# The layout of statements

Where the code of a statement is, and how the parts of it are joined. A plan is a tree whose
expressions are pieces: phrases with the range of their code. `Stmt.Laid code B C plan a b` says
that the code from `a` to `b` is laid out as the plan says, if the innermost loop around it is left
at `B` and goes on at `C`. In a `for` loop the step stands in front of the body.

While a statement is compiled, the targets of some of its jumps are not known yet. A `Sketch` is a
part of the code with such holes: `Sketch b H f L` says that the code by which `f` is longer than
`b` is as `L` demands, once the jumps at the indices `H` are pointed to their targets. Sketches are
put one behind the other, and their holes are filled when the targets are known.
-/

namespace ScriptEngine

/-! ## Plans -/

/-- The instructions from an index up to another are those that the compiler makes of a phrase. -/
inductive Phrase.Makes (e : Phrase) (code : Array Instruction) (start stop : Nat) : Prop where
  | of {n power : Nat} {t : Token} {s s' : CompileState} {left : Operand} {behind : Token.Kind}
      {kinds : List Token.Kind} (first : t.kind = e.first)
      (rest : s.lexer.Shows (e.rest ++ behind :: kinds))
      (reads : Compile.expressionWithin n t power resultRegister s = .ok left s')
      (shows_ : s'.lexer.Shows (behind :: kinds))
      (starts : s.current.size = start) (stops : s'.current.size = stop)
      (same : ∀ i, start ≤ i → i < stop → code[i]? = s'.current.chunk.code[i]?)

/-- The code of a phrase is entered at its start and left at its end. -/
theorem Phrase.Makes.closed {e : Phrase} {code : Array Instruction} {start stop : Nat}
    (h : e.Makes code start stop) :
    start < stop ∧ ∀ n, start ≤ n → n < stop → ∃ i, code[n]? = some i ∧ i.Stays n stop := by
  obtain ⟨first, -, reads, -, rfl, rfl, same⟩ := h
  obtain ⟨hgrown, -⟩ := Compile.yields_expressionWithin _ _ _ _
    (fun h => by rw [first] at h ⊢; exact e.opens.1 h) _ (.refl _) _ _ reads
  refine ⟨hgrown.more, fun n hn hlt => ?_⟩
  have hi := Array.getElem?_eq_some_iff.2 ⟨hlt, rfl⟩
  exact ⟨_, (same n hn hlt).trans hi, hgrown.stays n _ hn List.not_mem_nil hi⟩

/-- A phrase and where its code is. -/
structure Piece where
  phrase : Phrase
  start : Nat
  stop : Nat

/-- The code of a piece is there, from an index up to another. -/
structure Piece.Laid (p : Piece) (code : Array Instruction) (a b : Nat) : Prop where
  start : p.start = a
  stop : p.stop = b
  made : p.phrase.Makes code a b

/-- The instruction at an index is a jump to a target. -/
def Jumps (code : Array Instruction) (n target : Nat) : Prop :=
  ∃ b c place, code[n]? = some ⟨.jump, target, b, c, place⟩

/-- The instruction at an index is a jump to a target if the result has the wanted truth. -/
def JumpsIf (code : Array Instruction) (n : Nat) (wanted : Bool) (target : Nat) : Prop :=
  ∃ c place, code[n]? =
    some ⟨if wanted then .jumpTrue else .jumpFalse, resultRegister, target, c, place⟩

/-- The code of an expression that may be missing. -/
def Piece.LaidIf (code : Array Instruction) (a b : Nat) : Option Piece → Prop
  | some p => p.Laid code a b
  | none => a = b

/-- The code of a condition that may be missing, and the jump to `exit` if it is false. -/
def Piece.Guards (code : Array Instruction) (exit a b : Nat) : Option Piece → Prop
  | some p => ∃ m, p.Laid code a m ∧ JumpsIf code m false exit ∧ b = m + 1
  | none => a = b

/-- The code of a return. -/
def Piece.Returns (code : Array Instruction) (a b : Nat) : Option Piece → Prop
  | some p => ∃ m, p.Laid code a m ∧
      (∃ x y place, code[m]? = some ⟨.ret, resultRegister, x, y, place⟩) ∧ b = m + 1
  | none => (∃ x y z place, code[a]? = some ⟨.retVoid, x, y, z, place⟩) ∧ b = a + 1

mutual

/-- The code from `a` to `b` is laid out as a plan says; see the head of the module. -/
def Stmt.Laid (code : Array Instruction) : (B C : Nat) → Stmt Piece → (a b : Nat) → Prop
  | _, _, .empty _, a, b => a = b
  | _, _, .expr p _, a, b => p.Laid code a b
  | B, C, .block body, a, b => body.Laid code B C a b
  | B, C, .ifThen test body, a, b => ∃ m, test.Laid code a m ∧ JumpsIf code m false b ∧
      body.Laid code B C (m + 1) b
  | B, C, .ifElse test body other, a, b => ∃ m k, test.Laid code a m ∧
      JumpsIf code m false (k + 1) ∧ body.Laid code B C (m + 1) k ∧ Jumps code k b ∧
        other.Laid code B C (k + 1) b
  | _, _, .whileLoop test body, a, b => ∃ m k, test.Laid code a m ∧ JumpsIf code m false b ∧
      body.Laid code b a (m + 1) k ∧ Jumps code k a ∧ b = k + 1
  | _, _, .doLoop body test _, a, b => ∃ m k, body.Laid code b m a m ∧ test.Laid code m k ∧
      JumpsIf code k true a ∧ b = k + 1
  | _, _, .forLoop init test step body, a, b => ∃ top enter back k, Piece.LaidIf code a top init ∧
      Piece.Guards code b top enter test ∧ Jumps code enter (back + 1) ∧
        Piece.LaidIf code (enter + 1) back step ∧ Jumps code back top ∧
          body.Laid code b (enter + 1) (back + 1) k ∧ Jumps code k (enter + 1) ∧ b = k + 1
  | B, _, .leave .breaks _, a, b => Jumps code a B ∧ b = a + 1
  | _, C, .leave .continues _, a, b => Jumps code a C ∧ b = a + 1
  | _, _, .ret e _, a, b => Piece.Returns code a b e

/-- The code of statements one behind the other. -/
def Stmts.Laid (code : Array Instruction) : (B C : Nat) → Stmts Piece → (a b : Nat) → Prop
  | _, _, .nil, a, b => a = b
  | B, C, .cons t ts, a, b => ∃ m, t.Laid code B C a m ∧ ts.Laid code B C m b

end

/-! ## Sketches -/

theorem Instruction.aim_aim (i : Instruction) (m n : Nat) : (i.aim m).aim n = i.aim n := by
  obtain ⟨op, a, b, c, place⟩ := i
  cases op <;> rfl

namespace FunctionState

/-- Appends an instruction. -/
def add (f : FunctionState) (i : Instruction) : FunctionState :=
  { f with chunk := f.chunk.emit i }

/-- Points jumps to a target. -/
def aim (f : FunctionState) (ns : List Nat) (target : Nat) : FunctionState :=
  { f with chunk := ns.foldl (fun c n => c.patchJump n target) f.chunk }

/-- Opens a loop. -/
def enter (f : FunctionState) : FunctionState :=
  { f with loops := {} :: f.loops }

/-- Closes the innermost loop. -/
def close (f : FunctionState) (exit resume : Nat) : FunctionState :=
  match f.loops with
  | [] => f
  | labels :: loops => { (f.aim labels.breaks exit).aim labels.continues resume with loops }

@[simp] theorem code_add (f : FunctionState) (i : Instruction) :
    (f.add i).chunk.code = f.chunk.code.push i := rfl

@[simp] theorem loops_add (f : FunctionState) (i : Instruction) : (f.add i).loops = f.loops := rfl

@[simp] theorem size_add (f : FunctionState) (i : Instruction) : (f.add i).size = f.size + 1 :=
  Array.size_push ..

theorem getElem?_add (f : FunctionState) (i : Instruction) :
    (f.add i).chunk.code[f.size]? = some i :=
  Array.getElem?_push_size

theorem getElem?_add_of_lt (f : FunctionState) (i : Instruction) {n : Nat} (hn : n < f.size) :
    (f.add i).chunk.code[n]? = f.chunk.code[n]? := by
  rw [code_add, Array.getElem?_push]
  exact if_neg (Nat.ne_of_lt hn)

@[simp] theorem loops_aim (f : FunctionState) (ns : List Nat) (target : Nat) :
    (f.aim ns target).loops = f.loops := rfl

theorem aim_cons (f : FunctionState) (m : Nat) (ns : List Nat) (target : Nat) :
    f.aim (m :: ns) target = (f.aim [m] target).aim ns target := rfl

@[simp] theorem size_aim (f : FunctionState) (ns : List Nat) (target : Nat) :
    (f.aim ns target).size = f.size := by
  induction ns generalizing f with
  | nil => rfl
  | cons m ns ih =>
    rw [aim_cons, ih]
    exact Array.size_modify ..

theorem getElem?_aim (f : FunctionState) (ns : List Nat) (target n : Nat) :
    (f.aim ns target).chunk.code[n]? =
      if n ∈ ns then f.chunk.code[n]?.map (·.aim target) else f.chunk.code[n]? := by
  induction ns generalizing f with
  | nil => simp [aim]
  | cons m ns ih =>
    have hstep : (f.aim [m] target).chunk.code[n]? =
        if m = n then f.chunk.code[n]?.map (·.aim target) else f.chunk.code[n]? :=
      Array.getElem?_modify ..
    rw [aim_cons, ih, hstep]
    by_cases hmn : m = n
    · subst hmn
      rcases f.chunk.code[m]? with _ | i <;> simp [Instruction.aim_aim]
    · simp [hmn, Ne.symm hmn]

end FunctionState

/-- The code from `a` to `b` is that of a function in the making, with the jumps at the indices `H`
pointed to the targets that `τ` gives. -/
structure FunctionState.Completed (f : FunctionState) (H : List Nat) (τ : Nat → Nat) (a b : Nat)
    (code : Array Instruction) : Prop where
  aimed : ∀ n, a ≤ n → n < b → n ∈ H → code[n]? = f.chunk.code[n]?.map (·.aim (τ n))
  same : ∀ n, a ≤ n → n < b → n ∉ H → code[n]? = f.chunk.code[n]?

/-- The code of a function in the making from the end of another one's on; see the head of the
module. -/
structure Sketch (b : FunctionState) (H : List Nat) (f : FunctionState)
    (L : Array Instruction → (Nat → Nat) → Prop) : Prop where
  size : b.size ≤ f.size
  code : ∀ n, n < b.size → f.chunk.code[n]? = b.chunk.code[n]?
  holes : ∀ n ∈ H, b.size ≤ n ∧ n < f.size
  laid : ∀ code τ, f.Completed H τ b.size f.size code → L code τ

namespace Sketch

variable {b f g : FunctionState} {H H' : List Nat}
  {L L' : Array Instruction → (Nat → Nat) → Prop}

theorem nil (b : FunctionState) : Sketch b [] b fun _ _ => True :=
  ⟨le_refl _, fun _ _ => rfl, by simp, fun _ _ _ => trivial⟩

theorem mono (h : Sketch b H f L) (hL : ∀ code τ, L code τ → L' code τ) : Sketch b H f L' :=
  ⟨h.size, h.code, h.holes, fun code τ hc => hL code τ (h.laid code τ hc)⟩

/-- The code is all that matters. -/
theorem congr (h : Sketch b H f L) {b' : FunctionState} (hb : b'.chunk.code = b.chunk.code)
    (hf : g.chunk.code = f.chunk.code) : Sketch b' H g L := by
  have hbsize : b'.size = b.size := congrArg Array.size hb
  have hfsize : g.size = f.size := congrArg Array.size hf
  refine ⟨hbsize ▸ hfsize ▸ h.size, ?_, ?_, fun code τ hc => h.laid code τ ⟨?_, ?_⟩⟩
  · simpa only [hb, hf, hbsize] using h.code
  · simpa only [hbsize, hfsize] using h.holes
  · simpa only [hf, hbsize, hfsize] using hc.aimed
  · simpa only [hf, hbsize, hfsize] using hc.same

/-- The same holes in another order. -/
theorem reorder (h : Sketch b H f L) (H' : List Nat) (hH : ∀ n, n ∈ H' ↔ n ∈ H) :
    Sketch b H' f L := by
  refine ⟨h.size, h.code, fun n hn => h.holes n ((hH n).1 hn), fun code τ hc => ?_⟩
  exact h.laid code τ ⟨fun n ha hb hn => hc.aimed n ha hb ((hH n).2 hn),
    fun n ha hb hn => hc.same n ha hb fun h' => hn ((hH n).1 h')⟩

/-- One sketch behind another. -/
theorem append (h : Sketch b H f L) (h' : Sketch f H' g L') :
    Sketch b (H ++ H') g fun code τ => L code τ ∧ L' code τ := by
  have hsize := h.size
  have hsize' := h'.size
  refine ⟨hsize.trans hsize', fun n hn => (h'.code n (by omega)).trans (h.code n hn), fun n hn => ?_,
    fun code τ hc => ⟨h.laid code τ ⟨?_, ?_⟩, h'.laid code τ ⟨?_, ?_⟩⟩⟩
  · rcases List.mem_append.1 hn with hn | hn
    · have := h.holes n hn
      omega
    · have := h'.holes n hn
      omega
  · intro n ha hlt hn
    rw [hc.aimed n ha (by omega) (List.mem_append_left _ hn), h'.code n hlt]
  · intro n ha hlt hn
    have hn' : n ∉ H' := fun hmem => absurd (h'.holes n hmem).1 (by omega)
    rw [hc.same n ha (by omega) (by simp [hn, hn']), h'.code n hlt]
  · exact fun n ha hlt hn => hc.aimed n (by omega) hlt (List.mem_append_right _ hn)
  · intro n ha hlt hn'
    have hn : n ∉ H := fun hmem => absurd (h.holes n hmem).2 (by omega)
    exact hc.same n (by omega) hlt (by simp [hn, hn'])

/-- One instruction. -/
theorem push (f : FunctionState) (i : Instruction) :
    Sketch f [] (f.add i) fun code _ => code[f.size]? = some i := by
  refine ⟨by simp, fun n hn => f.getElem?_add_of_lt i hn, by simp, fun code τ hc => ?_⟩
  exact (hc.same f.size (le_refl _) (by simp) List.not_mem_nil).trans (f.getElem?_add i)

/-- A jump whose target is not known yet. -/
theorem hole (f : FunctionState) (i : Instruction) :
    Sketch f [f.size] (f.add i) fun code τ => code[f.size]? = some (i.aim (τ f.size)) := by
  refine ⟨by simp, fun n hn => f.getElem?_add_of_lt i hn, by simp, fun code τ hc => ?_⟩
  rw [hc.aimed f.size (le_refl _) (by simp) (by simp), f.getElem?_add i]
  rfl

/-- Holes are filled: their target is known now. -/
theorem aim (h : Sketch b H f L) (H' ns : List Nat) (target : Nat) (hns : ∀ n ∈ ns, n ∈ H)
    (hH : ∀ n, n ∈ H' ↔ n ∈ H ∧ n ∉ ns) :
    Sketch b H' (f.aim ns target) fun code τ => L code fun n => if n ∈ ns then target else τ n := by
  have hsize := f.size_aim ns target
  refine ⟨hsize ▸ h.size, fun n hn => ?_, fun n hn => hsize ▸ h.holes n ((hH n).1 hn).1,
    fun code τ hc => h.laid code _ ⟨fun n ha hlt hn => ?_, fun n ha hlt hn => ?_⟩⟩
  · rw [f.getElem?_aim, if_neg fun hmem => absurd (h.holes n (hns n hmem)).1 (by omega), h.code n hn]
  · by_cases hmem : n ∈ ns
    · rw [hc.same n ha (hsize ▸ hlt) fun h' => ((hH n).1 h').2 hmem, f.getElem?_aim, if_pos hmem,
        if_pos hmem]
    · rw [hc.aimed n ha (hsize ▸ hlt) ((hH n).2 ⟨hn, hmem⟩), f.getElem?_aim, if_neg hmem,
        if_neg hmem]
  · rw [hc.same n ha (hsize ▸ hlt) fun h' => hn ((hH n).1 h').1, f.getElem?_aim,
      if_neg fun hmem => hn (hns n hmem)]

end Sketch

end ScriptEngine
