import ScriptEngine.Proofs.Results.Division
import ScriptEngine.Proofs.Statement.Faithful

/-!
# The twins divide the code

The twin of a construct does what the construct does, and the parts that it marks divide the code.
Both are one statement for each construct, in the form of a rule: `Divides P m m' Q` says that from
a function with parts of which `P` holds, a step `m` that succeeds is taken by its twin `m'` with
the same result, and leads to a function with parts of which `Q` holds.

Main results: `divide_of_compile` and `divides_functionChunk`.
-/

namespace ScriptEngine

namespace Compile

open FunctionState

/-- The rule of a step and its twin; see the head of the module. -/
def Divides {α : Type} (P : List CodePart → FunctionState → Prop) (m : Compile α)
    (m' : Division α) (Q : α → List CodePart → FunctionState → Prop) : Prop :=
  ∀ s parts, P parts s.current → ∀ a s', m s = .ok a s' →
    ∃ parts', m' parts s = .ok (a, parts') s' ∧ Q a parts' s'.current

namespace Divides

variable {α β : Type} {P P' : List CodePart → FunctionState → Prop}
  {Q Q' : α → List CodePart → FunctionState → Prop} {m : Compile α} {m' : Division α}

theorem bind {k : α → Compile β} {k' : α → Division β}
    {R : β → List CodePart → FunctionState → Prop} (hm : Divides P m m' Q)
    (hk : ∀ a, Divides (Q a) (k a) (k' a) R) : Divides P (m >>= k) (m' >>= k') R := by
  intro s parts hs b s' h
  obtain ⟨a, s₁, h₁, h₂⟩ := bind_eq_ok h
  obtain ⟨parts₁, hm', hQ⟩ := hm s parts hs a s₁ h₁
  obtain ⟨parts₂, hk', hR⟩ := hk a s₁ parts₁ hQ b s' h₂
  refine ⟨parts₂, ?_, hR⟩
  show (m' parts >>= fun r => k' r.1 r.2) s = _
  rw [bind_apply, hm']
  exact hk'

/-- A step that is its own twin. -/
theorem lift (h : ∀ parts, Yields (P parts) m fun a => Q a parts) :
    Divides P m (liftM m) Q := by
  intro s parts hs a s' heq
  refine ⟨parts, ?_, h parts s hs a s' heq⟩
  show (m >>= fun a => pure (a, parts)) s = _
  rw [bind_apply, heq]
  rfl

/-- A step whose code becomes a part. -/
theorem mark {H T : List Nat} {kind : α → PartKind}
    (h : ∀ b : FunctionState, Yields (b.Segment []) m fun _ => b.Segment []) :
    Divides (Divided H T) m (Division.mark kind m) fun _ => Divided H T := by
  intro s parts hs a s' heq
  have hgrown := h s.current s (.refl _) a s' heq
  refine ⟨_, ?_, hs.extend hgrown (kind a)⟩
  show (m >>= fun a => here >>= fun stop =>
    pure (a, if s.current.size < stop then _ else parts)) s = _
  rw [bind_apply, heq]
  rfl

theorem pure {a : α} (h : ∀ parts f, P parts f → Q a parts f) :
    Divides P (pure a : Compile α) (pure a : Division α) Q := by
  intro s parts hs b s' heq
  cases heq
  exact ⟨parts, rfl, h parts _ hs⟩

theorem ite {c : Prop} [Decidable c] {m₁ m₂ : Compile α} {m₁' m₂' : Division α}
    (h₁ : c → Divides P m₁ m₁' Q) (h₂ : ¬c → Divides P m₂ m₂' Q) :
    Divides P (if c then m₁ else m₂) (if c then m₁' else m₂') Q := by
  split
  · exact h₁ ‹_›
  · exact h₂ ‹_›

/-- More is known of what a step gives. -/
theorem gives {R : α → Prop} (h : Divides P m m' Q) (hR : ∀ s a s', m s = .ok a s' → R a) :
    Divides P m m' fun a parts f => Q a parts f ∧ R a := by
  intro s parts hs a s' heq
  obtain ⟨parts', hm', hq⟩ := h s parts hs a s' heq
  exact ⟨parts', hm', hq, hR s a s' heq⟩

theorem known {c : Prop} (h : c → Divides P m m' Q) :
    Divides (fun parts f => P parts f ∧ c) m m' Q :=
  fun s parts hs => h hs.2 s parts hs.1

/-- A step that never succeeds. -/
theorem never (h : ∀ s, ∃ failure s', m s = .error failure s') : Divides P m m' Q := by
  intro s _ _ a s' heq
  obtain ⟨failure, s₁, hm⟩ := h s
  rw [hm] at heq
  cases heq

end Divides

/-! ## Steps between parts -/

section Between

variable {α : Type} {P : List CodePart → FunctionState → Prop} {H T : List Nat} {x : Int}

theorem divides_next : Divides P next (liftM next) fun _ => P :=
  .lift fun _ => yields_next

theorem divides_expect (kind : Token.Kind) :
    Divides P (expect kind) (liftM (expect kind)) fun _ => P :=
  .lift fun _ => yields_expect kind

theorem divides_pushBack (t : Token) :
    Divides P (pushBack t) (liftM (pushBack t)) fun _ => P :=
  .lift fun _ => yields_pushBack t

theorem divides_fail (cause : GrammarFault) (place : Position) {m' : Division α}
    {Q : α → List CodePart → FunctionState → Prop} :
    Divides P (fail cause place : Compile α) m' Q :=
  .never fun s => ⟨_, s, rfl⟩

theorem divides_exhausted {m' : Division α} {Q : α → List CodePart → FunctionState → Prop} :
    Divides P (throw .exhausted : Compile α) m' Q :=
  .never fun s => ⟨_, s, rfl⟩

/-- A step that makes no code. -/
theorem yields_quiet {parts : List CodePart} {m : Compile α} (h : Quiet m) :
    Yields (Divided H T parts) m fun _ => Divided H T parts :=
  fun s hs a s' heq => hs.quiet (h s a s' heq).1 (h s a s' heq).2

/-- An instruction that writes nothing, and jumps to a known target if it is a jump. -/
theorem yields_between {parts : List CodePart} {place : Position} {op : Op} {x y z : Int}
    (hop : op.writes = (false, false))
    (htarget : ∀ t, (⟨op, x, y, z, place⟩ : Instruction).target? = some t →
      ∃ m ∈ 0 :: T, t = (m : Nat)) :
    Yields (Divided H T parts) (emitAt place op x y z) fun n => Divided (n :: H) T parts := by
  refine .of_ok fun s hs => ⟨_, _, emitAt_apply place op x y z s, ?_⟩
  exact hs.push (i := ⟨op, x, y, z, place⟩) rfl rfl (by simp [Instruction.written, hop]) htarget

theorem divides_emitAt {place : Position} {op : Op} {x y z : Int}
    (hop : op.writes = (false, false))
    (htarget : ∀ t, (⟨op, x, y, z, place⟩ : Instruction).target? = some t →
      ∃ m ∈ 0 :: T, t = (m : Nat)) :
    Divides (Divided H T) (emitAt place op x y z) (liftM (emitAt place op x y z))
      fun n => Divided (n :: H) T :=
  .lift fun _ => yields_between hop htarget

theorem divides_emit {op : Op} {x y z : Int} (hop : op.writes = (false, false))
    (htarget : ∀ place t, (⟨op, x, y, z, place⟩ : Instruction).target? = some t →
      ∃ m ∈ 0 :: T, t = (m : Nat)) :
    Divides (Divided H T) (emit op x y z) (liftM (emit op x y z)) fun n => Divided (n :: H) T :=
  .lift fun _ => yields_get.bind fun _ => yields_between hop (htarget _)

/-- A jump whose target is not known yet. -/
theorem divides_wait {op : Op} (hop : op = .jump ∧ x = 0 ∨ op = .jumpFalse) :
    Divides (Divided H T) (emit op x) (liftM (emit op x)) fun n => Divided (n :: H) T := by
  rcases hop with ⟨rfl, rfl⟩ | rfl <;> exact divides_emit rfl fun _ _ ht =>
    ⟨0, List.mem_cons_self, (Option.some.inj ht).symm⟩

/-- A jump back to a known place. -/
theorem divides_back {top : Nat} (htop : top ∈ T) :
    Divides (Divided H T) (emit .jump top) (liftM (emit .jump top)) fun n => Divided (n :: H) T :=
  divides_emit rfl fun _ _ ht => ⟨top, .tail _ htop, (Option.some.inj ht).symm⟩

/-- A jump back to a known place if the result is true. -/
theorem divides_backIf {top : Nat} (htop : top ∈ T) :
    Divides (Divided H T) (emit .jumpTrue resultRegister top)
      (liftM (emit .jumpTrue resultRegister top)) fun n => Divided (n :: H) T :=
  divides_emit rfl fun _ _ ht => ⟨top, .tail _ htop, (Option.some.inj ht).symm⟩

theorem divides_here : Divides (Divided H T) here (liftM here) fun n => Divided H (n :: T) :=
  .lift fun _ => .of_ok fun _ hs => ⟨_, _, rfl, hs.here⟩

theorem divides_patch {n t : Nat} (hn : n ∈ H) (ht : t ∈ T) :
    Divides (Divided H T) (patch n t) (liftM (patch n t)) fun _ => Divided H T := by
  refine .lift fun parts => .of_ok fun s hs => ⟨(), _, rfl, ?_⟩
  have haimed : (s.current.aim [n] t).Divided H T parts :=
    hs.aim (fun m hm => (hs.jumps m (List.mem_singleton.1 hm ▸ hn)).2) ht
  exact haimed

theorem divides_patchExit {exit : Option Nat} {t : Nat} (hexit : ∀ n ∈ exit, n ∈ H) (ht : t ∈ T) :
    Divides (Divided H T) (patchExit exit t) (liftM (patchExit exit t)) fun _ => Divided H T := by
  cases exit with
  | some n => exact divides_patch (hexit n rfl) ht
  | none => exact .lift fun _ => .pure fun _ h => h

theorem divides_openBlock : Divides (Divided H T) (modifyCurrent (·.openBlock))
    (liftM (modifyCurrent (·.openBlock))) fun _ => Divided H T :=
  .lift fun _ => .of_ok fun _ hs => ⟨(), _, rfl, hs.quiet rfl rfl⟩

theorem divides_closeBlock : Divides (Divided H T) (modifyCurrent (·.closeBlock))
    (liftM (modifyCurrent (·.closeBlock))) fun _ => Divided H T :=
  .lift fun _ => .of_ok fun _ hs => ⟨(), _, rfl, hs.quiet rfl rfl⟩

theorem divides_openLoop :
    Divides (Divided H T) openLoop (liftM openLoop) fun _ => Divided H T :=
  .lift fun _ => .of_ok fun _ hs => ⟨(), _, rfl, hs.enter⟩

theorem divides_closeLoop {exit resume : Nat} (hexit : exit ∈ T) (hresume : resume ∈ T) :
    Divides (Divided H T) (closeLoop exit resume) (liftM (closeLoop exit resume))
      fun _ => Divided H T :=
  .lift fun _ => .of_ok fun s hs => ⟨(), { s with current := s.current.close exit resume }, by
    unfold closeLoop FunctionState.close modifyCurrent
    rfl, hs.close hexit hresume⟩

end Between

/-! ## Statements -/

/-- What a statement leaves: divided code, and an operand that was not loaded from anywhere. -/
def Ended (H T : List Nat) (left : Operand) (parts : List CodePart) (f : FunctionState) : Prop :=
  f.Divided H T parts ∧ left.load? = none

end Compile

/-- The twin of the statements of a grammar divides their code. -/
structure Divider.Sound (d : Divider) : Prop where
  adding : d.grammar.Adding
  statement : ∀ H T, Compile.Divides (FunctionState.Divided H T) d.grammar.statement d.statement
    fun _ => FunctionState.Divided H T

namespace Compile

open FunctionState

variable {d : Divider} {H T H' T' : List Nat}

/-- The end of a statement. -/
theorem divides_done {left : Operand} (hleft : left.load? = none) (hH : ∀ n ∈ H', n ∈ H)
    (hT : ∀ n ∈ T', n ∈ T) :
    Divides (Divided H T) (pure left : Compile Operand) (pure left : Division Operand)
      (Ended H' T') :=
  .pure fun _ _ h => ⟨h.mono hH hT, hleft⟩

theorem divides_headFrom (hd : d.Sound) (first : Token) :
    Divides (Divided H T) (d.grammar.expression first Power.expression resultRegister)
      (Division.headFrom d first) fun _ => Divided H T :=
  .mark fun _ => (yields_expression hd.adding (le_refl _)).consequence (fun _ h => h)
    fun _ _ h => h.1.toSegment

theorem divides_head (hd : d.Sound) :
    Divides (Divided H T) (parse d.grammar Power.expression resultRegister) (Division.head d)
      fun _ => Divided H T :=
  divides_next.bind fun first => divides_headFrom hd first

theorem divides_varDeclarations (hd : d.Sound) :
    Divides (Divided H T) (declarations d.grammar resultRegister d.grammar.budget)
      (Division.varDeclarations d) fun _ => Divided H T :=
  .mark fun _ => (yields_declarations hd.adding _ _).consequence (fun _ h => h)
    fun _ _ h => h.1.toSegment

theorem divides_blockBody (hd : d.Sound) (fuel : Nat) :
    Divides (Divided H T) (blockBody d.grammar fuel) (Division.blockBody d fuel)
      fun _ => Divided H T := by
  induction fuel with
  | zero => exact divides_exhausted
  | succ fuel ih =>
    refine divides_next.bind fun t => .ite (fun _ => .pure fun _ _ h => h) fun _ =>
      .ite (fun _ => divides_fail _ _) fun _ => ?_
    exact (divides_pushBack t).bind fun _ => (hd.statement H T).bind fun _ => ih

theorem divides_block (hd : d.Sound) :
    Divides (Divided H T) (block d.grammar) (Division.block d) (Ended H T) :=
  divides_openBlock.bind fun _ => (divides_blockBody hd _).bind fun _ =>
    divides_closeBlock.bind fun _ => divides_done rfl (fun _ h => h) fun _ h => h

theorem divides_condition (hd : d.Sound) :
    Divides (Divided H T) (condition d.grammar resultRegister) (Division.condition d)
      fun _ => Divided H T :=
  (divides_expect _).bind fun _ => (divides_head hd).bind fun _ => divides_expect _

theorem divides_ifStatement (hd : d.Sound) :
    Divides (Divided H T) (ifStatement d.grammar resultRegister) (Division.ifStatement d)
      (Ended H T) := by
  refine (divides_condition hd).bind fun _ => (divides_wait (.inr rfl)).bind fun skip => ?_
  refine (hd.statement _ _).bind fun _ => divides_next.bind fun t =>
    .ite (fun _ => ?_) fun _ => ?_
  · refine (divides_wait (.inl ⟨rfl, rfl⟩)).bind fun exit => divides_here.bind fun other => ?_
    refine (divides_patch (by simp) (by simp)).bind fun _ => (hd.statement _ _).bind fun _ => ?_
    refine divides_here.bind fun behind => (divides_patch (by simp) (by simp)).bind fun _ => ?_
    exact divides_done rfl (fun _ h => by simp [h]) fun _ h => by simp [h]
  · refine (divides_pushBack t).bind fun _ => divides_here.bind fun behind => ?_
    exact (divides_patch (by simp) (by simp)).bind fun _ =>
      divides_done rfl (fun _ h => by simp [h]) fun _ h => by simp [h]

theorem divides_whileStatement (hd : d.Sound) :
    Divides (Divided H T) (whileStatement d.grammar resultRegister) (Division.whileStatement d)
      (Ended H T) := by
  refine divides_here.bind fun top => (divides_condition hd).bind fun _ => ?_
  refine (divides_wait (.inr rfl)).bind fun exit => divides_openLoop.bind fun _ => ?_
  refine (hd.statement _ _).bind fun _ => (divides_back (by simp)).bind fun _ => ?_
  refine divides_here.bind fun behind => (divides_patch (by simp) (by simp)).bind fun _ => ?_
  exact (divides_closeLoop (by simp) (by simp)).bind fun _ =>
    divides_done rfl (fun _ h => by simp [h]) fun _ h => by simp [h]

theorem divides_doStatement (hd : d.Sound) :
    Divides (Divided H T) (doStatement d.grammar resultRegister) (Division.doStatement d)
      (Ended H T) := by
  refine divides_here.bind fun top => divides_openLoop.bind fun _ => ?_
  refine (hd.statement _ _).bind fun _ => (divides_expect _).bind fun _ => ?_
  refine divides_here.bind fun check => (divides_condition hd).bind fun _ => ?_
  refine (divides_backIf (by simp)).bind fun _ => ?_
  refine divides_here.bind fun behind => (divides_closeLoop (by simp) (by simp)).bind fun _ => ?_
  exact divides_done rfl (fun _ h => by simp [h]) fun _ h => by simp [h]

theorem divides_forStart (hd : d.Sound) :
    Divides (Divided H T) (forStart d.grammar resultRegister) (Division.forStart d)
      fun _ => Divided H T := by
  refine divides_next.bind fun t => .ite (fun _ => ?_) fun _ => .ite (fun _ => .pure fun _ _ h => h)
    fun _ => ?_
  · exact (divides_varDeclarations hd).bind fun _ => divides_expect _
  · exact (divides_headFrom hd t).bind fun _ => divides_expect _

/-- The jump that leaves a `for` loop, if there is one, is between parts. -/
theorem divides_forTest (hd : d.Sound) :
    Divides (Divided H T) (forTest d.grammar resultRegister) (Division.forTest d)
      fun exit => Divided (exit.toList ++ H) T := by
  refine divides_next.bind fun t => .ite (fun _ => .pure fun _ _ h => h) fun _ => ?_
  refine (divides_headFrom hd t).bind fun _ => (divides_expect _).bind fun _ => ?_
  rw [map_eq_pure_bind, map_eq_pure_bind]
  exact (divides_wait (.inr rfl)).bind fun n => .pure fun _ _ h => h

theorem divides_forStep (hd : d.Sound) :
    Divides (Divided H T) (forStep d.grammar resultRegister) (Division.forStep d)
      fun _ => Divided H T :=
  divides_next.bind fun t => .ite (fun _ => .pure fun _ _ h => h) fun _ =>
    (divides_headFrom hd t).bind fun _ => divides_expect _

theorem divides_forStatement (hd : d.Sound) :
    Divides (Divided H T) (forStatement d.grammar resultRegister) (Division.forStatement d)
      (Ended H T) := by
  refine (divides_expect _).bind fun _ => divides_openBlock.bind fun _ => ?_
  refine (divides_forStart hd).bind fun _ => divides_here.bind fun top => ?_
  refine (divides_forTest hd).bind fun exit => ?_
  refine (divides_wait (.inl ⟨rfl, rfl⟩)).bind fun toBody => ?_
  refine divides_here.bind fun step => (divides_forStep hd).bind fun _ => ?_
  refine (divides_back (by simp)).bind fun _ => divides_here.bind fun body => ?_
  refine (divides_patch (by simp) (by simp)).bind fun _ => divides_openLoop.bind fun _ => ?_
  refine (hd.statement _ _).bind fun _ => (divides_back (by simp)).bind fun _ => ?_
  refine divides_here.bind fun behind => ?_
  refine (divides_patchExit (fun n hn => by simp [Option.mem_def.1 hn]) (by simp)).bind fun _ => ?_
  refine (divides_closeLoop (by simp) (by simp)).bind fun _ => divides_closeBlock.bind fun _ => ?_
  exact divides_done rfl (fun _ h => by simp [h]) fun _ h => by simp [h]

theorem divides_returnStatement (hd : d.Sound) (place : Position) :
    Divides (Divided H T) (returnStatement d.grammar resultRegister place)
      (Division.returnStatement d place) (Ended H T) := by
  refine Divides.bind (Q := fun _ => Divided H T) (.lift fun _ => ?_) fun _ => .ite (fun _ => ?_)
    fun _ => ?_
  · exact yields_next.bind fun t => (yields_pushBack t).bind fun _ => .pure fun _ h => h
  · exact (divides_emitAt rfl fun _ ht => by cases ht).bind fun _ =>
      divides_done rfl (fun _ h => by simp [h]) fun _ h => h
  · exact (divides_head hd).bind fun _ => (divides_emitAt rfl fun _ ht => by cases ht).bind fun _ =>
      divides_done rfl (fun _ h => by simp [h]) fun _ h => h

/-- A jump out of a loop waits in the lists of the loop. -/
theorem divides_leaveLoop (word : Keyword) (place : Position) :
    Divides (Divided H T) (leaveLoop word place) (liftM (leaveLoop word place)) (Ended H T) := by
  refine .lift fun parts => ?_
  have hget : Yields (Divided H T parts) (get : Compile CompileState)
      fun state f => f.Divided H T parts ∧ state.current = f :=
    .of_ok fun s hs => ⟨s, s, rfl, hs, rfl⟩
  refine hget.bind fun state => ?_
  split
  · exact yields_fail _ _
  · rename_i labels loops hloops
    refine .of_ok fun s hs => ⟨_, _, rfl, ?_, rfl⟩
    obtain ⟨hs, heq⟩ := hs
    have hpushed : FunctionState.Divided (s.current.size :: H) T parts
        { s.current with chunk := s.current.chunk.emit ⟨.jump, 0, 0, 0, place⟩ } :=
      hs.push rfl rfl rfl fun t ht => ⟨0, List.mem_cons_self, (Option.some.inj ht).symm⟩
    have hwaiting := hpushed.waiting labels (heq ▸ hloops ▸ List.mem_cons_self)
    have hjump := hpushed.jumps s.current.size List.mem_cons_self
    refine .mono (.congr hpushed rfl fun labels' hl n hn => ?_) (fun _ h => .tail _ h) fun _ h => h
    rcases List.mem_cons.1 hl with rfl | hl
    · by_cases hword : word = .breakWord
      · simp only [hword, if_true, List.mem_append, List.mem_singleton] at hn
        rcases hn with (hn | rfl) | hn
        · exact hwaiting n (List.mem_append_left _ hn)
        · exact hjump
        · exact hwaiting n (List.mem_append_right _ hn)
      · simp only [hword, if_false, List.mem_append, List.mem_singleton] at hn
        rcases hn with hn | hn | rfl
        · exact hwaiting n (List.mem_append_left _ hn)
        · exact hwaiting n (List.mem_append_right _ hn)
        · exact hjump
    · exact hpushed.waiting labels' (heq ▸ hloops ▸ .tail _ hl) n hn

/-! ## Productions -/

/-- Declarations of variables leave no operand that could be assigned to. -/
theorem load_declarations {p : Productions} {dest : Int} {fuel : Nat} {s s' : CompileState}
    {left : Operand} (h : declarations p dest fuel s = .ok left s') : left.load? = none := by
  have hany : ∀ {α : Type} (m : Compile α), Yields (fun _ => True) m fun _ _ => True :=
    fun _ _ _ _ _ _ => trivial
  have hyields : Yields (fun _ => True) (declarations p dest fuel)
      fun left _ => left.load? = none := by
    clear h
    induction fuel with
    | zero => exact yields_exhausted
    | succ fuel ih =>
      refine (hany _).bind fun t => (hany _).bind fun s => (hany _).bind fun k => ?_
      refine (hany _).bind fun slot => (hany _).bind fun t' => (hany _).bind fun t => ?_
      refine .ite (fun _ => ih) fun _ => .ite (fun _ => ?_) fun _ => yields_fail _ _
      exact (hany _).bind fun _ => .pure fun _ _ => rfl
  exact hyields s trivial left s' h

theorem divides_construct (hd : d.Sound) (t : Token) (ht : t.kind.startsStatement = true) :
    Divides (Divided H T) (leading d.grammar t Power.statement resultRegister)
      (Division.construct d t) (Ended H T) := by
  obtain ⟨kind, place⟩ := t
  unfold leading
  dsimp only
  rw [if_neg (by simp [Power.expression, Power.statement])]
  cases kind with
  | number x => cases ht
  | str s => cases ht
  | ident s => cases ht
  | finish => cases ht
  | mark sign =>
    cases sign with
    | lBrace => exact divides_block hd
    | _ => cases ht
  | keyword word =>
    cases word with
    | ifWord => exact divides_ifStatement hd
    | whileWord => exact divides_whileStatement hd
    | doWord => exact divides_doStatement hd
    | forWord => exact divides_forStatement hd
    | var => exact (divides_varDeclarations hd).gives fun _ _ _ h => load_declarations h
    | returnWord => exact divides_returnStatement hd place
    | breakWord => exact divides_leaveLoop .breakWord place
    | continueWord => exact divides_leaveLoop .continueWord place
    | _ => cases ht

theorem divides_sentence (hd : d.Sound) (t : Token) :
    Divides (Divided H T) (expression d.grammar t Power.statement resultRegister)
      (Division.sentence d t) fun _ => Divided H T := by
  unfold Division.sentence
  split
  · rename_i ht
    refine (divides_construct hd t ht).bind fun left => .ite (fun _ => .pure fun _ _ h => h.1)
      fun _ => .known fun hleft => .mark fun b => ?_
    exact yields_appendix hd.adding _ _ _ hleft
  · rename_i ht
    refine .mark fun b => (yields_leading hd.adding t _ _ fun h => absurd h ht).bind fun left => ?_
    exact .ite (fun _ => .pure fun _ h => h.1.toSegment) fun _ =>
      (yields_climb hd.adding _ _ _ left).consequence (fun _ h => h) fun _ _ h => h.1.toSegment

theorem divides_statement {p : Productions} {sentence : Token → Division Operand}
    (h : ∀ t, Divides (Divided H T) (p.expression t Power.statement resultRegister) (sentence t)
      fun _ => Divided H T) :
    Divides (Divided H T) (statement p) (Division.statement sentence) fun _ => Divided H T := by
  refine divides_next.bind fun t => .ite (fun _ => .pure fun _ _ h => h) fun _ =>
    .ite (fun _ => divides_pushBack t) fun _ => ?_
  refine (h t).bind fun left => .ite (fun _ => .pure fun _ _ h => h) fun _ =>
    divides_next.bind fun t => ?_
  exact .ite (fun _ => .pure fun _ _ h => h) fun _ => .ite (fun _ => divides_pushBack t)
    fun _ => divides_fail _ _

/-- The twin of the grammar divides, however much fuel it has. -/
theorem sound_divider (fuel : Nat) : (Division.divider fuel).Sound := by
  -- A statement is read with less fuel than its expression, and the other way round.
  suffices h : (∀ t H T, Divides (Divided H T)
      (expressionWithin fuel t Power.statement resultRegister) (Division.sentenceWithin fuel t)
      fun _ => Divided H T) ∧ ∀ H T, Divides (Divided H T) (statementWithin fuel)
      (Division.statementWithin fuel) fun _ => Divided H T from ⟨adding_productions fuel, h.2⟩
  induction fuel with
  | zero => exact ⟨fun _ _ _ => .never fun s => ⟨_, s, rfl⟩, fun _ _ => .never fun s => ⟨_, s, rfl⟩⟩
  | succ fuel ih =>
    have hd : (Division.divider fuel).Sound := ⟨adding_productions fuel, ih.2⟩
    exact ⟨fun t H T => divides_sentence hd t,
      fun H T => divides_statement (p := productions fuel) fun t => ih.1 t H T⟩

/-! ## Scripts and functions -/

theorem divides_scriptBody (hd : d.Sound) (fuel : Nat) :
    Divides (Divided H T) (scriptBody d.grammar fuel) (Division.scriptBody d fuel)
      fun _ => Divided H T := by
  induction fuel with
  | zero => exact divides_exhausted
  | succ fuel ih =>
    refine divides_next.bind fun t => .ite (fun _ => .pure fun _ _ h => h) fun _ =>
      .ite (fun _ => divides_fail _ _) fun _ => ?_
    exact (divides_pushBack t).bind fun _ => (hd.statement H T).bind fun _ => ih

/-- The return at the end of the code. -/
theorem yields_end {parts : List CodePart} : Yields (Divided H T parts) (emit .ret resultRegister)
    fun _ f => f.chunk.DividedToEnd parts := by
  refine yields_get.bind fun state => .of_ok fun s hs =>
    ⟨_, _, emitAt_apply state.position .ret resultRegister 0 0 s, ?_⟩
  have hpushed := hs.push (g := { s.current with
    chunk := s.current.chunk.emit ⟨.ret, resultRegister, 0, 0, state.position⟩ }) rfl rfl rfl
    fun _ ht => by cases ht
  have hend : (s.current.chunk.emit ⟨.ret, resultRegister, 0, 0, state.position⟩).code.size - 1 =
      s.current.size := by rw [Chunk.size_emit]; rfl
  refine ⟨hpushed.toDivided, ⟨0, 0, state.position, ?_⟩, ?_⟩
  · rw [hend]
    exact Array.getElem?_push_size
  · rw [hend]
    exact (hpushed.jumps _ List.mem_cons_self).2

theorem divides_script (hd : d.Sound) :
    Divides (Divided H T) (script d.grammar) (Division.script d)
      fun c parts _ => c.DividedToEnd parts :=
  (divides_scriptBody hd _).bind fun _ => (Divides.lift fun _ => yields_end).bind fun _ =>
    Divides.bind (Q := fun state parts _ => state.current.chunk.DividedToEnd parts)
      (.lift fun _ => .of_ok fun s hs => ⟨s, s, rfl, hs⟩) fun _ => .pure fun _ _ h => h

theorem divides_registerParameters (register : Int) (params : List String) :
    Divides (Divided H T) (registerParameters register params)
      (liftM (registerParameters register params)) fun _ => Divided H T := by
  refine .lift fun parts => ?_
  induction params generalizing register with
  | nil => exact .pure fun _ h => h
  | cons param params ih =>
    refine (yields_quiet (quiet_constant _)).bind fun k => Yields.bind ?_ fun _ => ih (register - 1)
    refine yields_get.bind fun _ => (yields_between rfl fun _ ht => by cases ht).consequence
      (fun _ h => h) fun _ _ h => h.mono (fun _ hn => .tail _ hn) fun _ ht => ht

theorem divides_functionBody (hd : d.Sound) (params : List String) :
    Divides (Divided H T) (functionBody d.grammar params) (Division.functionBody d params)
      fun _ parts f => f.chunk.DividedToEnd parts :=
  (divides_registerParameters _ params).bind fun _ => (divides_expect _).bind fun _ =>
    (divides_blockBody hd _).bind fun _ => (Divides.lift fun _ => yields_end).bind fun _ =>
      .pure fun _ _ h => h

/-- The chunk of a function is divided, wherever the function stands. -/
theorem divides_functionChunk (hd : d.Sound) (named : Option String) (params : List String) :
    Divides (fun parts _ => parts = []) (functionChunk d.grammar named params)
      (Division.functionChunk d named params) fun c parts _ => c.DividedToEnd parts := by
  obtain ⟨hloops, hsize⟩ := loops_function named params
  have henter : Divides (fun parts _ => parts = []) (enterFunction (.function named params))
      (liftM (enterFunction (.function named params))) fun _ => Divided [] [] :=
    .lift fun parts => .of_ok fun s hs => ⟨(), _, rfl, hs ▸ divided_nil hsize hloops⟩
  have hleave : Divides (fun parts f => f.chunk.DividedToEnd parts) leaveFunction
      (liftM leaveFunction) fun c parts _ => c.DividedToEnd parts := by
    refine .lift fun parts => .of_ok fun s hs => ?_
    rcases h : s.enclosing with _ | ⟨outer, enclosing⟩
    · exact ⟨_, _, leaveFunction_nil h, hs⟩
    · exact ⟨_, _, leaveFunction_cons h, hs⟩
  exact henter.bind fun _ => (divides_functionBody hd params).bind fun _ => hleave

end Compile

/-- The chunk of a script is divided into its parts. -/
theorem divide_of_compile {source : String} {c : Chunk} (h : compile source = .ok c) :
    ∃ parts, divide source = .ok (c, parts) ∧ c.DividedToEnd parts := by
  unfold compile at h
  dsimp only at h
  split at h
  · rename_i root s hrun
    cases h
    obtain ⟨parts, hdivide, hdivided⟩ := Compile.divides_script (Compile.sound_divider _)
      { lexer := Lexer.ofText (Source.normalize source.toList) } []
      (FunctionState.divided_nil rfl rfl) c s hrun
    refine ⟨parts, ?_, hdivided⟩
    simp only [divide, StateT.run, EStateM.run, hdivide]
  · cases h

/-- The word `do` ends no statement by itself, so the sum is an appendix of the loop. -/
example : (divide "1; do ; while (x) + 2; var y;").toOption.map (·.2) =
    some [⟨.declaration, 6, 8⟩, ⟨.appendix, 4, 6⟩, ⟨.head, 1, 3⟩, ⟨.expression, 0, 1⟩] := by
  decide +kernel

end ScriptEngine
