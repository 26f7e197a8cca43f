import ScriptEngine.Proofs.Statement.Layout

/-!
# Sketches of statements

How the code of each statement is put together from that of its parts. `Stmt.Drawn t f f'` says that
the code by which `f'` is longer than `f` is a sketch of a plan of the statement `t`. Its holes are
the jumps out of the innermost loop around the statement, and they are in the lists of that loop
(`FunctionState.Jots`). There is one rule for each statement; those of the loops fill the holes of
their bodies.
-/

namespace ScriptEngine

/-! ## Jumps out of loops -/

namespace FunctionState

/-- The loops around a place, with more jumps in the lists of the innermost one. -/
def jot (bs cs : List Nat) : List LoopLabels → List LoopLabels
  | [] => []
  | labels :: loops => ⟨labels.breaks ++ bs, labels.continues ++ cs⟩ :: loops

/-- The jumps `bs` and `cs` out of the innermost loop were added to its lists. -/
structure Jots (f : FunctionState) (bs cs : List Nat) (f' : FunctionState) : Prop where
  loops : f'.loops = jot bs cs f.loops
  none : f.loops = [] → bs = [] ∧ cs = []
  apart : ∀ n ∈ bs, n ∉ cs

theorem Jots.of_eq {f f' : FunctionState} (h : f'.loops = f.loops) : f.Jots [] [] f' := by
  refine ⟨h.trans ?_, fun _ => ⟨rfl, rfl⟩, by simp⟩
  rcases f.loops with _ | ⟨labels, loops⟩ <;> simp [jot]

theorem Jots.congr {f f' g g' : FunctionState} {bs cs : List Nat} (h : f.Jots bs cs f')
    (hg : g.loops = f.loops) (hg' : g'.loops = f'.loops) : g.Jots bs cs g' :=
  ⟨by rw [hg', hg, h.loops], fun hnil => h.none (hg ▸ hnil), h.apart⟩

theorem Jots.append {f f₁ f₂ : FunctionState} {bs cs bs' cs' : List Nat}
    (h : f.Jots bs cs f₁) (h' : f₁.Jots bs' cs' f₂)
    (hs : ∀ n ∈ bs ++ cs, n < f₁.size) (hs' : ∀ n ∈ bs' ++ cs', f₁.size ≤ n) :
    f.Jots (bs ++ bs') (cs ++ cs') f₂ := by
  refine ⟨?_, fun hnil => ?_, fun n hn hn' => ?_⟩
  · rw [h'.loops, h.loops]
    rcases f.loops with _ | ⟨labels, loops⟩ <;> simp [jot]
  · obtain ⟨rfl, rfl⟩ := h.none hnil
    obtain ⟨rfl, rfl⟩ := h'.none (by rw [h.loops, hnil]; rfl)
    simp
  · simp only [List.mem_append] at hn hn' hs hs'
    rcases hn with hn | hn <;> rcases hn' with hn' | hn'
    · exact h.apart n hn hn'
    · have := hs n (.inl hn)
      have := hs' n (.inr hn')
      omega
    · have := hs n (.inr hn')
      have := hs' n (.inl hn)
      omega
    · exact h'.apart n hn hn'

/-- The word that is refused if there is no loop around the place. -/
def fault? (f : FunctionState) (loose : Option Keyword) : Option Keyword :=
  if f.loops.isEmpty then loose else none

theorem fault?_none (f : FunctionState) : f.fault? none = none := by
  simp [fault?]

theorem fault?_or (f : FunctionState) (a b : Option Keyword) :
    f.fault? (a.or b) = (f.fault? a).or (f.fault? b) := by
  unfold fault?
  split <;> simp

theorem fault?_congr {f g : FunctionState} (h : g.loops = f.loops) (loose : Option Keyword) :
    g.fault? loose = f.fault? loose := by
  simp only [fault?, h]

@[simp] theorem fault?_add (f : FunctionState) (i : Instruction) (loose : Option Keyword) :
    (f.add i).fault? loose = f.fault? loose := rfl

@[simp] theorem fault?_aim (f : FunctionState) (ns : List Nat) (target : Nat)
    (loose : Option Keyword) : (f.aim ns target).fault? loose = f.fault? loose := rfl

@[simp] theorem fault?_enter (f : FunctionState) (loose : Option Keyword) :
    f.enter.fault? loose = none := rfl

theorem Jots.fault? {f f' : FunctionState} {bs cs : List Nat} (h : f.Jots bs cs f')
    (loose : Option Keyword) : f'.fault? loose = f.fault? loose := by
  simp only [FunctionState.fault?, h.loops]
  rcases f.loops with _ | ⟨labels, loops⟩ <;> rfl

end FunctionState

/-! ## Sketches -/

/-- The code of a phrase was added. -/
structure Phrase.Drawn (e : Phrase) (f f' : FunctionState) : Prop where
  loops : f'.loops = f.loops
  sketch : Sketch f [] f' fun code _ => e.Makes code f.size f'.size

/-- What a plan demands of code whose holes are filled: that it is laid out so, wherever the jumps
out of the innermost loop go. -/
def Stmt.Layout (plan : Stmt Piece) (bs cs : List Nat) (a b : Nat) (code : Array Instruction)
    (τ : Nat → Nat) : Prop :=
  ∀ B C, (∀ n ∈ bs, τ n = B) → (∀ n ∈ cs, τ n = C) → plan.Laid code B C a b

def Stmts.Layout (plan : Stmts Piece) (bs cs : List Nat) (a b : Nat) (code : Array Instruction)
    (τ : Nat → Nat) : Prop :=
  ∀ B C, (∀ n ∈ bs, τ n = B) → (∀ n ∈ cs, τ n = C) → plan.Laid code B C a b

/-- The code of a statement was added. -/
def Stmt.Drawn (t : Stmt Phrase) (f f' : FunctionState) : Prop :=
  ∃ (plan : Stmt Piece) (bs cs : List Nat), plan.map Piece.phrase = t ∧ f.Jots bs cs f' ∧
    Sketch f (bs ++ cs) f' (plan.Layout bs cs f.size f'.size)

/-- The code of statements was added. -/
def Stmts.Drawn (ts : Stmts Phrase) (f f' : FunctionState) : Prop :=
  ∃ (plan : Stmts Piece) (bs cs : List Nat), plan.map Piece.phrase = ts ∧ f.Jots bs cs f' ∧
    Sketch f (bs ++ cs) f' (plan.Layout bs cs f.size f'.size)

/-! ## Statements -/

section Drawn

variable {test : Phrase} {body other : Stmt Phrase} {f f₁ f₂ f₃ f₄ : FunctionState}

theorem Stmt.drawn_empty (f : FunctionState) (closed : Bool) : (Stmt.empty closed).Drawn f f :=
  ⟨.empty closed, [], [], rfl, .of_eq rfl, (Sketch.nil f).mono fun _ _ _ _ _ _ _ => rfl⟩

theorem Stmt.drawn_expr {e : Phrase} (h : e.Drawn f f₁) (closed : Bool) :
    (Stmt.expr e closed).Drawn f f₁ :=
  ⟨.expr ⟨e, f.size, f₁.size⟩ closed, [], [], rfl, .of_eq h.loops,
    h.sketch.mono fun _ _ h _ _ _ _ => ⟨rfl, rfl, h⟩⟩

/-- A jump that waits for its target stands in front of the code that comes next. -/
theorem Sketch.notMem {b : FunctionState} {i : Instruction} {H : List Nat}
    {L : Array Instruction → (Nat → Nat) → Prop} (h : Sketch (b.add i) H f L) : b.size ∉ H := by
  intro hmem
  have hle := (h.holes _ hmem).1
  rw [FunctionState.size_add] at hle
  omega

theorem Jumps.of_aim {code : Array Instruction} {n t target : Nat} {x y z : Int} {place : Position}
    (h : code[n]? = some ((⟨.jump, x, y, z, place⟩ : Instruction).aim t)) (ht : t = target) :
    Jumps code n target :=
  ⟨y, z, place, ht ▸ h⟩

theorem JumpsIf.of_aim {code : Array Instruction} {n t target : Nat} {y z : Int} {place : Position}
    (h : code[n]? = some ((⟨.jumpFalse, resultRegister, y, z, place⟩ : Instruction).aim t))
    (ht : t = target) : JumpsIf code n false target :=
  ⟨z, place, ht ▸ h⟩

theorem Stmt.drawn_ifThen {place : Position} (htest : test.Drawn f f₁)
    (hbody : body.Drawn (f₁.add ⟨.jumpFalse, resultRegister, 0, 0, place⟩) f₂) :
    (Stmt.ifThen test body).Drawn f (f₂.aim [f₁.size] f₂.size) := by
  obtain ⟨plan, bs, cs, rfl, hjots, hbody⟩ := hbody
  have hskip := hbody.notMem
  have hall := (htest.sketch.append ((Sketch.hole f₁ _).append hbody)).aim
    (bs ++ cs) [f₁.size] f₂.size (by simp) (by grind)
  refine ⟨.ifThen ⟨test, f.size, f₁.size⟩ plan, bs, cs, rfl, hjots.congr htest.loops.symm rfl,
    hall.mono ?_⟩
  rintro code τ ⟨hcond, hjump, hlaid⟩ B C hB hC
  rw [FunctionState.size_aim]
  rw [FunctionState.size_add] at hlaid
  exact ⟨f₁.size, ⟨rfl, rfl, hcond⟩, .of_aim hjump (by simp), hlaid B C (by grind) (by grind)⟩

theorem Stmt.drawn_ifElse {place place' : Position} (htest : test.Drawn f f₁)
    (hbody : body.Drawn (f₁.add ⟨.jumpFalse, resultRegister, 0, 0, place⟩) f₂)
    (hother : other.Drawn ((f₂.add ⟨.jump, 0, 0, 0, place'⟩).aim [f₁.size] (f₂.size + 1)) f₃) :
    (Stmt.ifElse test body other).Drawn f (f₃.aim [f₂.size] f₃.size) := by
  obtain ⟨plan, bs, cs, rfl, hjots, hbody⟩ := hbody
  obtain ⟨plan', bs', cs', rfl, hjots', hother⟩ := hother
  have hskip := hbody.notMem
  have hlow := hbody.holes
  have hhigh := hother.holes
  have hsize := hbody.size
  simp only [FunctionState.size_aim, FunctionState.size_add] at hhigh hlow hsize
  have hfirst := (htest.sketch.append ((Sketch.hole f₁ _).append
    (hbody.append (Sketch.hole f₂ ⟨.jump, 0, 0, 0, place'⟩)))).aim (bs ++ cs ++ [f₂.size])
      [f₁.size] (f₂.size + 1) (by simp) (by grind)
  have hall := (hfirst.append hother).aim ((bs ++ bs') ++ (cs ++ cs')) [f₂.size]
    f₃.size (by simp) (by grind)
  refine ⟨.ifElse ⟨test, f.size, f₁.size⟩ plan plan', bs ++ bs', cs ++ cs', rfl, ?_, hall.mono ?_⟩
  · exact (hjots.congr htest.loops.symm rfl).append (hjots'.congr rfl rfl)
      (fun n hn => (hlow n hn).2) fun n hn => by have := (hhigh n hn).1; omega
  · rintro code τ ⟨⟨hcond, hskip, hlaid, hexit⟩, hlaid'⟩ B C hB hC
    simp only [List.mem_append, List.mem_singleton] at hB hC hlow hhigh hskip hexit hlaid hlaid'
    simp only [FunctionState.size_aim, FunctionState.size_add] at hlaid hlaid' ⊢
    refine ⟨f₁.size, f₂.size, ⟨rfl, rfl, hcond⟩, .of_aim hskip (if_pos trivial), hlaid B C ?_ ?_,
      .of_aim hexit ?_, hlaid' B C ?_ ?_⟩ <;> grind

/-- The code and the loops are all that matters. -/
theorem Stmt.Drawn.congr (h : body.Drawn f f₁) {g g₁ : FunctionState}
    (hg : g.chunk.code = f.chunk.code ∧ g.loops = f.loops)
    (hg₁ : g₁.chunk.code = f₁.chunk.code ∧ g₁.loops = f₁.loops) : body.Drawn g g₁ := by
  obtain ⟨plan, bs, cs, hplan, hjots, hsketch⟩ := h
  have hsize : g.size = f.size := congrArg Array.size hg.1
  have hsize₁ : g₁.size = f₁.size := congrArg Array.size hg₁.1
  refine ⟨plan, bs, cs, hplan, hjots.congr hg.2 hg₁.2, ?_⟩
  rw [hsize, hsize₁]
  exact hsketch.congr hg.1 hg₁.1

theorem Stmt.Drawn.fault? (h : body.Drawn f f₁) (loose : Option Keyword) :
    f₁.fault? loose = f.fault? loose := by
  obtain ⟨_, _, _, _, hjots, _⟩ := h
  exact hjots.fault? loose

/-! ### Loops -/

/-- The code of the body of a loop, whose jumps out of the loop are its holes. -/
theorem Stmt.Drawn.inLoop (h : body.Drawn f.enter f₁) :
    ∃ (plan : Stmt Piece) (bs cs : List Nat), plan.map Piece.phrase = body ∧
      f₁.loops = ⟨bs, cs⟩ :: f.loops ∧ (∀ n ∈ bs, n ∉ cs) ∧
        Sketch f (bs ++ cs) f₁ (plan.Layout bs cs f.size f₁.size) := by
  obtain ⟨plan, bs, cs, hplan, hjots, hsketch⟩ := h
  refine ⟨plan, bs, cs, hplan, hjots.loops.trans ?_, hjots.apart, hsketch.congr rfl rfl⟩
  simp [FunctionState.jot, FunctionState.enter]

/-- The loop is closed: its breaks go to `exit` and its continues to `resume`. -/
theorem Sketch.close {bs cs : List Nat} {loops : List LoopLabels}
    {L : Array Instruction → (Nat → Nat) → Prop} (h : Sketch f (bs ++ cs) f₁ L)
    (hloops : f₁.loops = ⟨bs, cs⟩ :: loops) (hapart : ∀ n ∈ bs, n ∉ cs) (exit resume : Nat) :
    (f₁.close exit resume).loops = loops ∧ (f₁.close exit resume).size = f₁.size ∧
      Sketch f [] (f₁.close exit resume) fun code τ =>
        L code fun n => if n ∈ bs then exit else if n ∈ cs then resume else τ n := by
  have hclose : (f₁.close exit resume).chunk = ((f₁.aim bs exit).aim cs resume).chunk ∧
      (f₁.close exit resume).loops = loops := by
    simp only [FunctionState.close, hloops, and_self]
  refine ⟨hclose.2, ?_, ?_⟩
  · rw [FunctionState.size, hclose.1]
    exact (FunctionState.size_aim _ _ _).trans (FunctionState.size_aim _ _ _)
  · have hbreaks := h.aim cs bs exit (by grind) (by grind)
    have hboth := hbreaks.aim [] cs resume (by simp) (by simp)
    exact hboth.congr rfl (congrArg Chunk.code hclose.1)

theorem Stmt.drawn_while {place place' : Position} (htest : test.Drawn f f₁)
    (hbody : body.Drawn (f₁.add ⟨.jumpFalse, resultRegister, 0, 0, place⟩).enter f₂) :
    (Stmt.whileLoop test body).Drawn f
      (((f₂.add ⟨.jump, f.size, 0, 0, place'⟩).aim [f₁.size] (f₂.size + 1)).close (f₂.size + 1)
        f.size) := by
  obtain ⟨plan, bs, cs, rfl, hloops, hapart, hbody⟩ := hbody.inLoop
  have hskip := hbody.notMem
  have hall := (htest.sketch.append ((Sketch.hole f₁ _).append (hbody.append
    (Sketch.push f₂ ⟨.jump, f.size, 0, 0, place'⟩)))).aim (bs ++ cs) [f₁.size]
      (f₂.size + 1) (by simp) (by grind)
  obtain ⟨hloops', hsize, hclosed⟩ := hall.close hloops hapart (f₂.size + 1) f.size
  refine ⟨.whileLoop ⟨test, f.size, f₁.size⟩ plan, [], [], rfl, .of_eq (hloops'.trans htest.loops),
    hclosed.mono ?_⟩
  rintro code τ ⟨hcond, hexit, hlaid, hback⟩ B C - -
  simp only [List.mem_append, List.mem_singleton] at hskip hexit hlaid
  simp only [hsize, FunctionState.size_aim, FunctionState.size_add] at hlaid ⊢
  exact ⟨f₁.size, f₂.size, ⟨rfl, rfl, hcond⟩, .of_aim hexit (if_pos trivial),
    hlaid _ _ (by grind) (by grind), ⟨0, 0, place', hback⟩, rfl⟩

theorem Stmt.drawn_do {place : Position} (hbody : body.Drawn f.enter f₁) (htest : test.Drawn f₁ f₂)
    (closed : Bool) : (Stmt.doLoop body test closed).Drawn f
      ((f₂.add ⟨.jumpTrue, resultRegister, f.size, 0, place⟩).close (f₂.size + 1) f₁.size) := by
  obtain ⟨plan, bs, cs, rfl, hloops, hapart, hbody⟩ := hbody.inLoop
  have hall := (hbody.append (htest.sketch.append
    (Sketch.push f₂ ⟨.jumpTrue, resultRegister, f.size, 0, place⟩))).reorder (bs ++ cs) (by simp)
  obtain ⟨hloops', hsize, hclosed⟩ :=
    hall.close (htest.loops.trans hloops) hapart (f₂.size + 1) f₁.size
  refine ⟨.doLoop plan ⟨test, f₁.size, f₂.size⟩ closed, [], [], rfl, .of_eq hloops', hclosed.mono ?_⟩
  rintro code τ ⟨hlaid, hcond, hback⟩ B C - -
  simp only [hsize, FunctionState.size_add]
  exact ⟨f₁.size, f₂.size, hlaid _ _ (by grind) (by grind), ⟨rfl, rfl, hcond⟩, ⟨0, place, hback⟩, rfl⟩

/-- The code of a phrase was added, if there is one. -/
def Phrase.DrawnIf (f f' : FunctionState) : Option Phrase → Prop
  | some e => e.Drawn f f'
  | none => f' = f

theorem Phrase.DrawnIf.sketch {e : Option Phrase} (h : Phrase.DrawnIf f f₁ e) :
    f₁.loops = f.loops ∧ ∃ piece : Option Piece, piece.map Piece.phrase = e ∧
      Sketch f [] f₁ fun code _ => Piece.LaidIf code f.size f₁.size piece := by
  cases e with
  | some e =>
    have hdrawn : e.Drawn f f₁ := h
    exact ⟨hdrawn.loops, some ⟨e, f.size, f₁.size⟩, rfl,
      hdrawn.sketch.mono fun _ _ h => ⟨rfl, rfl, h⟩⟩
  | none =>
    cases h
    exact ⟨rfl, none, rfl, (Sketch.nil f).mono fun _ _ _ => rfl⟩

/-- The code of a condition was added, and behind it a jump that is taken if it is false. -/
def Phrase.GuardDrawn (f f' : FunctionState) (exit : Option Nat) : Option Phrase → Prop
  | some e => ∃ f₁ place, e.Drawn f f₁ ∧ f' = f₁.add ⟨.jumpFalse, resultRegister, 0, 0, place⟩ ∧
      exit = some f₁.size
  | none => f' = f ∧ exit = none

theorem Phrase.GuardDrawn.sketch {e : Option Phrase} {exit : Option Nat}
    (h : Phrase.GuardDrawn f f₁ exit e) :
    f₁.loops = f.loops ∧ ∃ piece : Option Piece, piece.map Piece.phrase = e ∧
      Sketch f exit.toList f₁ fun code τ => ∀ target, (∀ n ∈ exit, τ n = target) →
        Piece.Guards code target f.size f₁.size piece := by
  cases e with
  | some e =>
    obtain ⟨f₂, place, hdrawn, rfl, rfl⟩ := h
    refine ⟨hdrawn.loops, some ⟨e, f.size, f₂.size⟩, rfl,
      (hdrawn.sketch.append (Sketch.hole f₂ _)).mono ?_⟩
    rintro code τ ⟨hcond, hjump⟩ target htarget
    exact ⟨f₂.size, ⟨rfl, rfl, hcond⟩, .of_aim hjump (htarget _ rfl), by simp⟩
  | none =>
    obtain ⟨rfl, rfl⟩ := h
    exact ⟨rfl, none, rfl, (Sketch.nil f₁).mono fun _ _ _ _ _ => rfl⟩

theorem Stmt.drawn_for {init cond step : Option Phrase} {exit : Option Nat}
    {place place' place'' : Position} (hinit : Phrase.DrawnIf f f₁ init)
    (hcond : Phrase.GuardDrawn f₁ f₂ exit cond)
    (hstep : Phrase.DrawnIf (f₂.add ⟨.jump, 0, 0, 0, place⟩) f₃ step)
    (hbody : body.Drawn
      ((f₃.add ⟨.jump, f₁.size, 0, 0, place'⟩).aim [f₂.size] (f₃.size + 1)).enter f₄) :
    (Stmt.forLoop init cond step body).Drawn f
      (((f₄.add ⟨.jump, f₂.size + 1, 0, 0, place''⟩).aim exit.toList (f₄.size + 1)).close
        (f₄.size + 1) (f₂.size + 1)) := by
  obtain ⟨hloops₁, initPiece, hinitPiece, hinit⟩ := hinit.sketch
  obtain ⟨hloops₂, condPiece, hcondPiece, hcond⟩ := hcond.sketch
  obtain ⟨hloops₃, stepPiece, hstepPiece, hstep⟩ := hstep.sketch
  obtain ⟨plan, bs, cs, rfl, hloops₄, hapart, hbody⟩ := hbody.inLoop
  have hexit := hcond.holes
  have hhigh := hbody.holes
  have hsize := hstep.size
  simp only [FunctionState.size_aim, FunctionState.size_add] at hhigh hsize
  have hhead := (hinit.append (hcond.append ((Sketch.hole f₂ _).append (hstep.append
    (Sketch.push f₃ ⟨.jump, f₁.size, 0, 0, place'⟩))))).aim exit.toList [f₂.size]
      (f₃.size + 1) (by simp) (by grind)
  have hall := (hhead.append (hbody.append
    (Sketch.push f₄ ⟨.jump, f₂.size + 1, 0, 0, place''⟩))).aim (bs ++ cs) exit.toList
      (f₄.size + 1) (fun n hn => List.mem_append_left _ hn) (by grind)
  obtain ⟨hloops, hsize', hclosed⟩ := hall.close hloops₄ hapart (f₄.size + 1) (f₂.size + 1)
  refine ⟨.forLoop initPiece condPiece stepPiece plan, [], [],
    by simp only [Stmt.map, hinitPiece, hcondPiece, hstepPiece], .of_eq (hloops.trans ?_),
    hclosed.mono ?_⟩
  · exact hloops₃.trans (hloops₂.trans hloops₁)
  · rintro code τ ⟨⟨hinit, hcond, henter, hstep, hback⟩, hlaid, hagain⟩ B C - -
    simp only [List.mem_singleton, Option.mem_toList, List.mem_append] at henter hcond hlaid hexit hhigh
    simp only [hsize', FunctionState.size_aim, FunctionState.size_add] at hstep hlaid ⊢
    refine ⟨f₁.size, f₂.size, f₃.size, f₄.size, hinit, hcond _ ?_, .of_aim henter (if_pos trivial),
      hstep, ⟨0, 0, place', hback⟩, hlaid _ _ ?_ ?_, ⟨0, 0, place'', hagain⟩, rfl⟩
    · intro n hn
      have := (hexit n hn).2
      rw [if_neg (by omega)]
      exact if_pos hn
    · intro n hn
      have := (hhigh n (.inl hn)).1
      refine (if_neg fun hmem => ?_).trans (if_pos hn)
      have := (hexit n hmem).2
      omega
    · intro n hn
      have := (hhigh n (.inr hn)).1
      refine (if_neg fun hmem => ?_).trans ((if_neg fun hmem => hapart n hmem hn).trans (if_pos hn))
      have := (hexit n hmem).2
      omega

/-! ### The other statements -/

theorem Stmt.drawn_block {ts : Stmts Phrase} (h : ts.Drawn f f₁) : (Stmt.block ts).Drawn f f₁ := by
  obtain ⟨plan, bs, cs, rfl, hjots, hsketch⟩ := h
  exact ⟨.block plan, bs, cs, rfl, hjots, hsketch⟩

theorem Stmts.drawn_nil (f : FunctionState) : Stmts.nil.Drawn f f :=
  ⟨.nil, [], [], rfl, .of_eq rfl, (Sketch.nil f).mono fun _ _ _ _ _ _ _ => rfl⟩

theorem Stmts.drawn_cons {ts : Stmts Phrase} (h : body.Drawn f f₁) (hs : ts.Drawn f₁ f₂) :
    (Stmts.cons body ts).Drawn f f₂ := by
  obtain ⟨plan, bs, cs, rfl, hjots, hsketch⟩ := h
  obtain ⟨plans, bs', cs', rfl, hjots', hsketch'⟩ := hs
  refine ⟨.cons plan plans, bs ++ bs', cs ++ cs', rfl, hjots.append hjots'
    (fun n hn => (hsketch.holes n hn).2) (fun n hn => (hsketch'.holes n hn).1),
    ((hsketch.append hsketch').reorder _ (by grind)).mono ?_⟩
  rintro code τ ⟨hlaid, hlaid'⟩ B C hB hC
  simp only [List.mem_append] at hB hC
  exact ⟨f₁.size, hlaid B C (by grind) (by grind), hlaid' B C (by grind) (by grind)⟩

theorem Stmt.drawn_ret {e : Phrase} {place : Position} (h : e.Drawn f f₁) (closed : Bool) :
    (Stmt.ret (some e) closed).Drawn f (f₁.add ⟨.ret, resultRegister, 0, 0, place⟩) := by
  refine ⟨.ret (some ⟨e, f.size, f₁.size⟩) closed, [], [], rfl, .of_eq h.loops,
    (h.sketch.append (Sketch.push f₁ _)).mono ?_⟩
  rintro code τ ⟨hmade, hret⟩ B C - -
  exact ⟨f₁.size, ⟨rfl, rfl, hmade⟩, ⟨0, 0, place, hret⟩, by simp⟩

theorem Stmt.drawn_retVoid {place : Position} (f : FunctionState) (closed : Bool) :
    (Stmt.ret none closed).Drawn f (f.add ⟨.retVoid, 0, 0, 0, place⟩) := by
  refine ⟨.ret none closed, [], [], rfl, .of_eq rfl, (Sketch.push f _).mono ?_⟩
  intro code τ hret B C _ _
  exact ⟨⟨0, 0, 0, place, hret⟩, by simp⟩

/-- The function with a jump in the list of its innermost loop. -/
def FunctionState.leaving (f : FunctionState) (exit : LoopExit) (place : Position) : FunctionState :=
  match exit with
  | .breaks => { f.add ⟨.jump, 0, 0, 0, place⟩ with loops := jot [f.size] [] f.loops }
  | .continues => { f.add ⟨.jump, 0, 0, 0, place⟩ with loops := jot [] [f.size] f.loops }

theorem Stmt.drawn_leave (exit : LoopExit) (place : Position) (hloops : f.loops ≠ [])
    (closed : Bool) : (Stmt.leave exit closed).Drawn f (f.leaving exit place) := by
  have hhole := Sketch.hole f ⟨.jump, 0, 0, 0, place⟩
  have hsize : (f.leaving exit place).size = f.size + 1 := by cases exit <;> exact f.size_add _
  cases exit with
  | breaks =>
    refine ⟨.leave .breaks closed, [f.size], [], rfl, ⟨rfl, fun h => absurd h hloops, by simp⟩,
      (hhole.congr (by rfl) (by rfl)).mono ?_⟩
    intro code τ hjump B C hB _
    exact ⟨.of_aim hjump (hB _ (by simp)), hsize⟩
  | continues =>
    refine ⟨.leave .continues closed, [], [f.size], rfl, ⟨rfl, fun h => absurd h hloops, by simp⟩,
      (hhole.congr (by rfl) (by rfl)).mono ?_⟩
    intro code τ hjump B C _ hC
    exact ⟨.of_aim hjump (hC _ (by simp)), hsize⟩

end Drawn

end ScriptEngine
