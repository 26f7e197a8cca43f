import ScriptEngine.Proofs.Registers.Confined

/-!
# The parts of the code of statements

The code of statements consists of parts, each of which evaluates something, and of jumps and
returns between them. A part is the code of an expression that is a statement, of a declaration, of
an expression in the head of a statement, or of operators that follow a statement which is no
expression, as in `do ; while (x) + 1`.

**Marking.** `Division` has a twin of each construct of the grammar of statements. It makes the same
code and marks the parts of it, the newest first. The expressions inside are those of the grammar
itself. That the twins do the same is part of their rules (`Divides`).

**Divided code.** `Divided H T parts f` says of the code of a function in the making that each part
is entered at its start and left at its end, and that the instructions between the parts write
nothing and jump to no place inside of one. The indices in `H` are those of jumps between parts, the
indices in `T` possible targets.
-/

namespace ScriptEngine

/-! ## Parts -/

/-- What a part of the code of statements comes from. -/
inductive PartKind where
  /-- An expression that is a statement. -/
  | expression
  /-- A declaration of variables, or of a function with a name. -/
  | declaration
  /-- An expression in the head of a statement, or behind the word `return`. -/
  | head
  /-- Operators that follow a statement which is no expression. -/
  | appendix
  deriving DecidableEq, Repr

/-- A part of the code: the instructions from `start` up to but not including `stop`. -/
structure CodePart where
  kind : PartKind
  start : Nat
  stop : Nat
  deriving DecidableEq, Repr

/-- A step of a compilation that marks the parts of the code it makes, the newest first. -/
abbrev Division := StateT (List CodePart) Compile

namespace Division

open Compile

/-- Marks the code of a step as a part, unless there is none. The kind may depend on what the step
gives. -/
def mark {α : Type} (kind : α → PartKind) (m : Compile α) : Division α := fun parts => do
  let start ← here
  let a ← m
  let stop ← here
  return (a, if start < stop then ⟨kind a, start, stop⟩ :: parts else parts)

end Division

/-- The expressions of a grammar, and the twin of its statements. -/
structure Divider where
  grammar : Productions
  statement : Division Unit

namespace Division

open Compile

/-! ## The twins -/

/-- An expression in the head of a statement, from its first token on. -/
def headFrom (d : Divider) (first : Token) : Division Operand :=
  mark (fun _ => .head) (d.grammar.expression first Power.expression resultRegister)

/-- An expression in the head of a statement. -/
def head (d : Divider) : Division Operand := do
  headFrom d (← next)

/-- Declarations of variables. -/
def varDeclarations (d : Divider) : Division Operand :=
  mark (fun _ => .declaration) (declarations d.grammar resultRegister d.grammar.budget)

def blockBody (d : Divider) : Nat → Division Unit
  | 0 => throw .exhausted
  | fuel + 1 => do
    let t ← next
    if t.kind = .mark .rBrace then return ()
    else if t.kind = .finish then fail (.expected (.sign .rBrace) .finish) t.position
    else
      pushBack t
      d.statement
      blockBody d fuel

def block (d : Divider) : Division Operand := do
  modifyCurrent (·.openBlock)
  blockBody d d.grammar.budget
  modifyCurrent (·.closeBlock)
  return .done

def condition (d : Divider) : Division Unit := do
  expect (.mark .lParen)
  let _ ← head d
  expect (.mark .rParen)

def ifStatement (d : Divider) : Division Operand := do
  condition d
  let skip ← emit .jumpFalse resultRegister
  d.statement
  let t ← next
  if t.kind = .keyword .elseWord then
    let exit ← emit .jump 0
    patch skip (← here)
    d.statement
    patch exit (← here)
  else
    pushBack t
    patch skip (← here)
  return .done

def whileStatement (d : Divider) : Division Operand := do
  let top ← here
  condition d
  let exit ← emit .jumpFalse resultRegister
  openLoop
  d.statement
  let _ ← emit .jump top
  let behind ← here
  patch exit behind
  closeLoop behind top
  return .done

def doStatement (d : Divider) : Division Operand := do
  let top ← here
  openLoop
  d.statement
  expect (.keyword .whileWord)
  let check ← here
  condition d
  let _ ← emit .jumpTrue resultRegister top
  closeLoop (← here) check
  return .temp

def forStart (d : Divider) : Division Unit := do
  let t ← next
  if t.kind = .keyword .var then
    let _ ← varDeclarations d
    expect (.mark .semicolon)
  else if t.kind = .mark .semicolon then return ()
  else
    let _ ← headFrom d t
    expect (.mark .semicolon)

def forTest (d : Divider) : Division (Option Nat) := do
  let t ← next
  if t.kind = .mark .semicolon then return none
  else
    let _ ← headFrom d t
    expect (.mark .semicolon)
    some <$> emit .jumpFalse resultRegister

def forStep (d : Divider) : Division Unit := do
  let t ← next
  if t.kind = .mark .rParen then return ()
  else
    let _ ← headFrom d t
    expect (.mark .rParen)

def forStatement (d : Divider) : Division Operand := do
  expect (.mark .lParen)
  modifyCurrent (·.openBlock)
  forStart d
  let top ← here
  let exit ← forTest d
  let toBody ← emit .jump 0
  let step ← here
  forStep d
  let _ ← emit .jump top
  patch toBody (← here)
  openLoop
  d.statement
  let _ ← emit .jump step
  let behind ← here
  patchExit exit behind
  closeLoop behind step
  modifyCurrent (·.closeBlock)
  return .done

def returnStatement (d : Divider) (place : Position) : Division Operand := do
  if ← atTerminator then
    let _ ← emitAt place .retVoid 0
  else
    let _ ← head d
    let _ ← emitAt place .ret resultRegister
  return .temp

/-- A statement that is no expression, behind its first token. -/
def construct (d : Divider) (t : Token) : Division Operand :=
  match t.kind with
  | .mark .lBrace => block d
  | .keyword .ifWord => ifStatement d
  | .keyword .whileWord => whileStatement d
  | .keyword .doWord => doStatement d
  | .keyword .forWord => forStatement d
  | .keyword .var => varDeclarations d
  | .keyword .returnWord => returnStatement d t.position
  | .keyword .breakWord => leaveLoop .breakWord t.position
  | .keyword .continueWord => leaveLoop .continueWord t.position
  | kind => fail (.unexpected kind) t.position

/-- What stands in front of the end of a statement. An expression that ends by itself is the
declaration of a function. -/
def sentence (d : Divider) (t : Token) : Division Operand :=
  if t.kind.startsStatement then do
    let left ← construct d t
    if left = .done then return left
    else
      mark (fun _ => .appendix)
        (climb d.grammar Power.statement resultRegister d.grammar.budget left)
  else
    mark (fun left => if left = .done then .declaration else .expression)
      (expression d.grammar t Power.statement resultRegister)

/-- A statement with what ends it. -/
def statement (sentence : Token → Division Operand) : Division Unit := do
  let t ← next
  if t.kind = .mark .semicolon then return ()
  else if isTerminator t.kind then pushBack t
  else if (← sentence t) = .done then return ()
  else
    let t ← next
    if t.kind = .mark .semicolon then return ()
    else if isTerminator t.kind then pushBack t
    else fail (.expected (.sign .semicolon) t.kind) t.position

mutual

/-- The twin of the expressions that are read with the power of statements. -/
def sentenceWithin : Nat → Token → Division Operand
  | 0, _ => throw .exhausted
  | fuel + 1, t => sentence ⟨productions fuel, statementWithin fuel⟩ t

def statementWithin : Nat → Division Unit
  | 0 => throw .exhausted
  | fuel + 1 => statement (sentenceWithin fuel)

end

/-- The twin of the whole grammar. -/
def divider (fuel : Nat) : Divider :=
  ⟨productions fuel, statementWithin fuel⟩

def scriptBody (d : Divider) : Nat → Division Unit
  | 0 => throw .exhausted
  | fuel + 1 => do
    let t ← next
    if t.kind = .finish then return ()
    else if t.kind = .mark .rBrace then fail (.unexpected t.kind) t.position
    else
      pushBack t
      d.statement
      scriptBody d fuel

def script (d : Divider) : Division Chunk := do
  scriptBody d d.grammar.budget
  let _ ← emit .ret resultRegister
  return (← (get : Compile CompileState)).current.chunk

def functionBody (d : Divider) (params : List String) : Division Unit := do
  registerParameters (-1) params
  expect (.mark .lBrace)
  blockBody d d.grammar.budget
  let _ ← emit .ret resultRegister

def functionChunk (d : Divider) (named : Option String) (params : List String) :
    Division Chunk := do
  enterFunction (.function named params)
  functionBody d params
  leaveFunction

end Division

/-- The chunk of a script, with its parts. -/
def divide (source : String) : Except Failure (Chunk × List CodePart) :=
  let cs := Source.normalize source.toList
  let marked := (Division.script (Division.divider (compileFuel cs))).run []
  match marked.run { lexer := Lexer.ofText cs } with
  | .ok result _ => .ok result
  | .error failure _ => .error failure

/-! ## Divided code -/

theorem Instruction.target?_aim (i : Instruction) (target : Nat) :
    (i.aim target).target? = i.target?.map fun _ => (target : Int) := by
  obtain ⟨op, a, b, c, place⟩ := i
  cases op <;> rfl

namespace CodePart

/-- No part has the instruction at an index. -/
def Outside (parts : List CodePart) (n : Nat) : Prop :=
  ∀ p ∈ parts, n < p.start ∨ p.stop ≤ n

/-- An index is not inside of a part, but it may be its first one. -/
def Edge (parts : List CodePart) (n : Nat) : Prop :=
  ∀ p ∈ parts, n ≤ p.start ∨ p.stop ≤ n

/-- What comes behind an instruction in no part is not inside of a part. -/
theorem Outside.edge_succ {parts : List CodePart} {n : Nat} (h : Outside parts n) :
    Edge parts (n + 1) :=
  fun p hp => (h p hp).imp Nat.succ_le_of_lt Nat.le_succ_of_le

end CodePart

/-- The code of a chunk is divided into parts; see the head of the module. -/
structure Chunk.Divided (parts : List CodePart) (c : Chunk) : Prop where
  apart : parts.Pairwise fun p q => q.stop ≤ p.start
  closed : ∀ p ∈ parts, p.start < p.stop ∧ p.stop ≤ c.code.size ∧
    ∀ (n : Nat) i, p.start ≤ n → n < p.stop → c.code[n]? = some i → i.Stays n p.stop
  between : ∀ (n : Nat) i, c.code[n]? = some i → CodePart.Outside parts n → i.written = [] ∧
    ∀ t : Int, i.target? = some t → ∃ m : Nat, t = m ∧ m ≤ c.code.size ∧ CodePart.Edge parts m

/-- The code of a finished chunk is divided into parts, and falling off its end returns the register
for results. -/
structure Chunk.DividedToEnd (parts : List CodePart) (c : Chunk) : Prop
    extends c.Divided parts where
  last : ∃ y z place, c.code[c.code.size - 1]? = some ⟨.ret, resultRegister, y, z, place⟩
  outside : CodePart.Outside parts (c.code.size - 1)

namespace FunctionState

/-- The code of a function in the making is divided into parts; see the head of the module. -/
structure Divided (H T : List Nat) (parts : List CodePart) (f : FunctionState) : Prop
    extends f.chunk.Divided parts where
  waiting : ∀ labels ∈ f.loops, ∀ n ∈ labels.breaks ++ labels.continues,
    n < f.size ∧ CodePart.Outside parts n
  jumps : ∀ n ∈ H, n < f.size ∧ CodePart.Outside parts n
  targets : ∀ n ∈ T, n ≤ f.size ∧ CodePart.Edge parts n

variable {f g : FunctionState} {H H' T T' : List Nat} {parts : List CodePart}

theorem divided_nil (hsize : f.size = 0) (hloops : f.loops = []) : f.Divided [] [] [] := by
  have hcode : ∀ n : Nat, f.chunk.code[n]? = none := fun n =>
    Array.getElem?_eq_none (by rw [FunctionState.size] at hsize; omega)
  refine ⟨⟨.nil, by simp, fun n i hi => ?_⟩, by simp [hloops], by simp, by simp⟩
  rw [hcode n] at hi
  cases hi

namespace Divided

theorem mono (h : f.Divided H T parts) (hH : ∀ n ∈ H', n ∈ H) (hT : ∀ n ∈ T', n ∈ T) :
    f.Divided H' T' parts :=
  { h with
    jumps := fun n hn => h.jumps n (hH n hn)
    targets := fun n hn => h.targets n (hT n hn) }

/-- The end of the code can be a target. -/
theorem here (h : f.Divided H T parts) : f.Divided H (f.size :: T) parts := by
  refine { h with targets := fun n hn => ?_ }
  rcases List.mem_cons.1 hn with rfl | hn
  · exact ⟨le_refl _, fun p hp => .inr (h.closed p hp).2.1⟩
  · exact h.targets n hn

/-- The code matters, and which jumps wait in the loops. -/
theorem congr (h : f.Divided H T parts) (hcode : g.chunk.code = f.chunk.code)
    (hloops : ∀ labels ∈ g.loops, ∀ n ∈ labels.breaks ++ labels.continues,
      n < f.size ∧ CodePart.Outside parts n) : g.Divided H T parts := by
  obtain ⟨⟨hapart, hclosed, hbetween⟩, -, hjumps, htargets⟩ := h
  refine ⟨⟨hapart, ?_, ?_⟩, ?_, ?_, ?_⟩ <;> simpa only [FunctionState.size, hcode]

theorem quiet (h : f.Divided H T parts) (hcode : g.chunk.code = f.chunk.code)
    (hloops : g.loops = f.loops) : g.Divided H T parts :=
  h.congr hcode (hloops ▸ h.waiting)

/-- An instruction between parts is appended. -/
theorem push (h : f.Divided H T parts) {i : Instruction}
    (hcode : g.chunk.code = f.chunk.code.push i) (hloops : g.loops = f.loops)
    (hwritten : i.written = []) (htarget : ∀ t, i.target? = some t → ∃ m ∈ 0 :: T, t = (m : Nat)) :
    g.Divided (f.size :: H) T parts := by
  have hsize : g.chunk.code.size = f.chunk.code.size + 1 := by rw [hcode, Array.size_push]
  have hgsize : g.size = f.size + 1 := hsize
  have hget : ∀ n, g.chunk.code[n]? = if n = f.size then some i else f.chunk.code[n]? := fun n => by
    rw [hcode, Array.getElem?_push]
    rfl
  have hend : CodePart.Outside parts f.size := fun p hp => .inr (h.closed p hp).2.1
  refine ⟨⟨h.apart, fun p hp => ?_, fun n j hj hout => ?_⟩, fun labels hl n hn => ?_,
    fun n hn => ?_, fun n hn => ?_⟩
  · obtain ⟨hlt, hstop, hstays⟩ := h.closed p hp
    refine ⟨hlt, by omega, fun n j hn hstop' hj => hstays n j hn hstop' ?_⟩
    rwa [hget, if_neg (by rw [FunctionState.size]; omega)] at hj
  · rw [hget] at hj
    split at hj
    · cases hj
      refine ⟨hwritten, fun t ht => ?_⟩
      obtain ⟨m, hm, rfl⟩ := htarget t ht
      rcases List.mem_cons.1 hm with rfl | hm
      · exact ⟨0, rfl, Nat.zero_le _, fun p _ => .inl (Nat.zero_le _)⟩
      · exact ⟨m, rfl, by have := (h.targets m hm).1; rw [FunctionState.size] at this; omega,
          (h.targets m hm).2⟩
    · obtain ⟨hw, ht⟩ := h.between n j hj hout
      refine ⟨hw, fun t htarget => ?_⟩
      obtain ⟨m, hm, hle, hedge⟩ := ht t htarget
      exact ⟨m, hm, by omega, hedge⟩
  · obtain ⟨hlt, hout⟩ := h.waiting labels (hloops ▸ hl) n hn
    exact ⟨by omega, hout⟩
  · rcases List.mem_cons.1 hn with rfl | hn
    · exact ⟨by omega, hend⟩
    · exact ⟨by have := (h.jumps n hn).1; omega, (h.jumps n hn).2⟩
  · exact ⟨by have := (h.targets n hn).1; omega, (h.targets n hn).2⟩

/-- Jumps between parts get a target. -/
theorem aim (h : f.Divided H T parts) {ns : List Nat} {t : Nat}
    (hns : ∀ n ∈ ns, CodePart.Outside parts n) (ht : t ∈ T) : (f.aim ns t).Divided H T parts := by
  have hsize : (f.aim ns t).chunk.code.size = f.chunk.code.size := f.size_aim ns t
  obtain ⟨⟨hapart, hclosed, hbetween⟩, hwaiting, hjumps, htargets⟩ := h
  refine ⟨⟨hapart, fun p hp => ?_, fun n j hj hout => ?_⟩, ?_, ?_, ?_⟩
  · obtain ⟨hlt, hstop, hstays⟩ := hclosed p hp
    refine ⟨hlt, hsize ▸ hstop, fun n j hn hstop' hj => hstays n j hn hstop' ?_⟩
    rwa [getElem?_aim, if_neg] at hj
    intro hmem
    have := hns n hmem p hp
    omega
  · rw [getElem?_aim] at hj
    split at hj
    · obtain ⟨i, hi, rfl⟩ := Option.map_eq_some_iff.1 hj
      refine ⟨(Instruction.written_aim t).trans (hbetween n i hi hout).1, fun target htarget => ?_⟩
      rw [Instruction.target?_aim] at htarget
      obtain ⟨-, -, rfl⟩ := Option.map_eq_some_iff.1 htarget
      exact ⟨t, rfl, hsize ▸ (htargets t ht).1, (htargets t ht).2⟩
    · rw [hsize]
      exact hbetween n j hj hout
  · simpa only [loops_aim, size_aim] using hwaiting
  · simpa only [size_aim] using hjumps
  · simpa only [size_aim] using htargets

/-- Code that control enters at its start and leaves at its end is appended as a part. -/
theorem extend (h : f.Divided H T parts) (hs : f.Segment [] g) (kind : PartKind) :
    g.Divided H T (if f.size < g.size then ⟨kind, f.size, g.size⟩ :: parts else parts) := by
  have hle := hs.size
  have hold : ∀ n i, g.chunk.code[n]? = some i → n < f.size → f.chunk.code[n]? = some i :=
    fun n i hi hn => (hs.code n hn).symm.trans hi
  split
  · rename_i hlt
    refine ⟨⟨List.pairwise_cons.2 ⟨fun q hq => (h.closed q hq).2.1, h.apart⟩, ?_,
      fun n i hi hout => ?_⟩, fun labels hl n hn => ?_, fun n hn => ?_, fun n hn => ?_⟩
    · rintro p (_ | ⟨_, hp⟩)
      · exact ⟨hlt, le_refl _, fun n i hn _ hi => hs.stays n i hn List.not_mem_nil hi⟩
      · obtain ⟨hstart, hstop, hstays⟩ := h.closed p hp
        have hstop' : p.stop ≤ f.size := hstop
        exact ⟨hstart, hstop'.trans hle, fun n i hn hn' hi =>
          hstays n i hn hn' (hold n i hi (by omega))⟩
    · have hend : n < g.size := (Array.getElem?_eq_some_iff.1 hi).1
      have hn : n < f.size := (hout _ List.mem_cons_self).resolve_right (by simpa using hend)
      obtain ⟨hw, ht⟩ := h.between n i (hold n i hi hn) fun p hp => hout p (.tail _ hp)
      refine ⟨hw, fun t htarget => ?_⟩
      obtain ⟨m, hm, hmle, hedge⟩ := ht t htarget
      exact ⟨m, hm, hmle.trans hle, List.forall_mem_cons.2 ⟨.inl hmle, hedge⟩⟩
    · obtain ⟨hn, hout⟩ := h.waiting labels (hs.loops ▸ hl) n hn
      exact ⟨hn.trans hlt, List.forall_mem_cons.2 ⟨.inl hn, hout⟩⟩
    · obtain ⟨hn, hout⟩ := h.jumps n hn
      exact ⟨hn.trans hlt, List.forall_mem_cons.2 ⟨.inl hn, hout⟩⟩
    · obtain ⟨hn, hedge⟩ := h.targets n hn
      exact ⟨hn.trans hle, List.forall_mem_cons.2 ⟨.inl hn, hedge⟩⟩
  · rename_i hnot
    have hsize : g.chunk.code.size = f.chunk.code.size := by
      simp only [FunctionState.size] at hle hnot
      omega
    refine h.quiet (Array.ext_getElem? fun n => ?_) hs.loops
    by_cases hn : n < f.size
    · exact hs.code n hn
    · rw [Array.getElem?_eq_none (by rw [FunctionState.size] at hn; omega),
        Array.getElem?_eq_none (by rw [FunctionState.size] at hn; omega)]

/-- A loop is opened. -/
theorem enter (h : f.Divided H T parts) : f.enter.Divided H T parts := by
  refine h.congr rfl fun labels hl n hn => ?_
  rcases List.mem_cons.1 hl with rfl | hl
  · cases hn
  · exact h.waiting labels hl n hn

/-- A loop is closed. -/
theorem close (h : f.Divided H T parts) {exit resume : Nat} (hexit : exit ∈ T)
    (hresume : resume ∈ T) : (f.close exit resume).Divided H T parts := by
  unfold FunctionState.close
  split
  · exact h
  · rename_i labels loops hloops
    have hout : ∀ n ∈ labels.breaks ++ labels.continues, CodePart.Outside parts n := fun n hn =>
      (h.waiting labels (hloops ▸ List.mem_cons_self) n hn).2
    have haimed := (h.aim (fun n hn => hout n (List.mem_append_left _ hn)) hexit).aim
      (fun n hn => hout n (List.mem_append_right _ hn)) hresume
    refine haimed.congr rfl fun labels' hl n hn => haimed.waiting labels' ?_ n hn
    rw [loops_aim, loops_aim, hloops]
    exact .tail _ hl

end Divided

end FunctionState

end ScriptEngine
