import ScriptEngine.Proofs.Registers.Confined

/-!
# Every construct writes from its destination on

One rule for each construct of the grammar, under the assumption that the two entry points are
confined (`Productions.Confining`). They are called in two ways only (`Power.Fits`): for an
expression, with a power that admits no statement and a destination from 2 on, or for a statement,
with the register for results. So the values that an enclosing construct has put below the
destination are not written, and neither are registers 0 and 1.

The fuel of the grammar is removed by an induction (`confining_productions`). A function literal
starts over with a function of its own, which is why the chunk of a script is restrained at every
depth (`restrained_of_compile`).
-/

namespace ScriptEngine

/-- The powers and destinations with which expressions are read: those of an expression, or those
of a statement. -/
def Power.Fits (power : Nat) (dest : Int) : Prop :=
  Power.expression ≤ power ∧ 2 ≤ dest ∨ power = Power.statement ∧ dest = resultRegister

/-- The load of an operand lies behind a function, and the register of a local is declared. -/
def Operand.Bounded (b f : FunctionState) : Operand → Prop
  | .slot register load => f.Declared register ∧ b.size ≤ load
  | .member _ _ load => b.size ≤ load
  | .temp | .done => True

/-- What an expression leaves: code that is confined, with the load of its operand in it. -/
def FunctionState.Leaves (b : FunctionState) (d : Int) (left : Operand) (f : FunctionState) :
    Prop :=
  b.Confined d f ∧ left.Bounded b f

/-- The entry points of the grammar are confined to the registers from the destination on. -/
structure Productions.Confining (p : Productions) : Prop where
  keeping : p.Keeping
  expression : ∀ (first : Token) {power : Nat} {dest : Int}, Power.Fits power dest →
    ∀ b d, d ≤ dest →
      Compile.Yields (FunctionState.Confined b d) (p.expression first power dest) (b.Leaves d)
  statement : ∀ b d, d ≤ resultRegister →
    Compile.Yields (FunctionState.Confined b d) p.statement fun _ => b.Confined d

namespace Compile

open FunctionState

variable {b : FunctionState} {d dest : Int} {p : Productions}

/-! ## Steps -/

theorem confines_done {left : Operand} (h : left = .temp ∨ left = .done) :
    Yields (b.Confined d) (pure left : Compile Operand) (b.Leaves d) :=
  .pure fun _ hf => ⟨hf, by rcases h with rfl | rfl <;> trivial⟩

/-- A step whose result does not matter. -/
theorem Yields.drop {α : Type} {P : FunctionState → Prop} {m : Compile α}
    {Q : α → FunctionState → Prop} {R : FunctionState → Prop}
    (h : Yields P m fun a f => R f ∧ Q a f) :
    Yields P m fun _ => R :=
  h.consequence (fun _ h => h) fun _ _ h => h.1

/-- An instruction that ends a construct. -/
theorem confines_last {place : Position} {op : Op} {x y z : Int} (hop : op.writes.2 = false)
    (hx : d ≤ x) :
    Yields (b.Confined d) (emitAt place op x y z >>= fun _ => pure .temp) (b.Leaves d) :=
  (confines_temp hop hx).drop.bind fun _ => confines_done (.inl rfl)

/-- An instruction that writes two temporaries, as a step of a member does. -/
theorem confines_temps {place : Position} {op : Op} {x y z : Int} (hx : d ≤ x) (hy : d ≤ y) :
    Yields (b.Confined d) (emitAt place op x y z) fun _ => b.Confined d :=
  (confines_emitAt fun _ _ => ⟨fun _ => .inl hx, fun _ => .inl hy⟩).drop

theorem confines_emit {op : Op} {x y z : Int} (hop : op.writes.2 = false) (hx : d ≤ x) :
    Yields (b.Confined d) (emit op x y z) fun n f => b.Confined d f ∧ b.size ≤ n :=
  yields_get.bind fun _ => confines_temp hop hx

theorem confines_emitSilent {op : Op} {x y z : Int} (hop : op.writes = (false, false)) :
    Yields (b.Confined d) (emit op x y z) fun n f => b.Confined d f ∧ b.size ≤ n :=
  yields_get.bind fun _ => confines_silent hop

/-- Two steps that point a jump to the end of the code. -/
theorem confines_landing {β : Type} {n : Nat} (hn : b.size ≤ n) {k : Unit → Compile β}
    {R : β → FunctionState → Prop} (hk : Yields (b.Confined d) (k ()) R) :
    Yields (b.Confined d) (here >>= fun target => patch n target >>= k) R :=
  confines_here.drop.bind fun target => (confines_patch hn target).bind fun _ => hk

theorem confines_expression (hp : p.Confining) {first : Token} {power : Nat}
    (hpower : Power.expression ≤ power) (hdest : 2 ≤ dest) (hd : d ≤ dest) :
    Yields (b.Confined d) (p.expression first power dest) (b.Leaves d) :=
  hp.expression first (.inl ⟨hpower, hdest⟩) b d hd

theorem confines_parse (hp : p.Confining) {power : Nat} (hpower : Power.expression ≤ power)
    (hdest : 2 ≤ dest) (hd : d ≤ dest) :
    Yields (b.Confined d) (parse p power dest) (b.Leaves d) :=
  yields_next.bind fun _ => confines_expression hp hpower hdest hd

/-- An operand whose load does not matter. -/
theorem confines_operand (hp : p.Confining) {power : Nat} (hpower : Power.expression ≤ power)
    (hdest : 2 ≤ dest) (hd : d ≤ dest) :
    Yields (b.Confined d) (parse p power dest) fun _ => b.Confined d :=
  (confines_parse hp hpower hdest hd).drop

/-- The state that is looked at is that of the function in the making. -/
theorem confines_get : Yields (b.Confined d) (get : Compile CompileState)
    fun state f => b.Confined d f ∧ state.current = f :=
  .of_ok fun s hs => ⟨s, s, rfl, hs, rfl⟩

/-! ## Locals -/

/-- The register of a local is carried along by making room for locals below it only. -/
theorem Yields.local {α : Type} {m : Compile α} {Q : α → FunctionState → Prop} {register : Int}
    (h : register < 0 → Yields ((b.under register).Confined d) m Q) :
    Yields (fun f => b.Confined d f ∧ f.Declared register) m Q :=
  fun s hs => h hs.2.2 s (hs.1.under hs.2)

/-- The room for locals is as before. -/
theorem confines_over {α : Type} {P : FunctionState → Prop} {m : Compile α} {register : Int}
    (h : Yields P m fun _ => (b.under register).Confined d) :
    Yields P m fun _ => b.Confined d :=
  h.consequence (fun _ h => h) fun _ _ h => h.over

/-- An instruction that writes a local. -/
theorem confines_toLocal {place : Position} {op : Op} {register y z : Int} (hr : register < 0)
    (hop : op.writes.2 = false) :
    Yields ((b.under register).Confined d) (emitAt place op register y z)
      fun _ => (b.under register).Confined d :=
  (confines_emitAt fun _ hf =>
    ⟨fun _ => .inr (hf.declared hr), fun h => by rw [hop] at h; cases h⟩).drop

/-- A step of a local: the local and the destination are written. -/
theorem confines_stepLocal {place : Position} {op : Op} {register z : Int} (hr : register < 0)
    (hd : d ≤ dest) :
    Yields ((b.under register).Confined d) (emitAt place op dest register z)
      fun _ => (b.under register).Confined d :=
  (confines_emitAt fun _ hf => ⟨fun _ => .inl hd, fun _ => .inr (hf.declared hr)⟩).drop

/-- The operand is a local. -/
theorem Yields.slot {α : Type} {m : Compile α} {Q : α → FunctionState → Prop} {register : Int}
    {load : Nat} (h : register < 0 → (b.under register).size ≤ load →
      Yields ((b.under register).Confined d) m Q) :
    Yields (b.Leaves d (.slot register load)) m Q :=
  fun s hs => h hs.2.1.2 hs.2.2 s (hs.1.under hs.2.1)

/-- The operand is a member. -/
theorem Yields.member {α : Type} {m : Compile α} {Q : α → FunctionState → Prop} {receiver key : Int}
    {load : Nat} (h : b.size ≤ load → Yields (b.Confined d) m Q) :
    Yields (b.Leaves d (.member receiver key load)) m Q :=
  fun s hs => h hs.2 s hs.1

/-- A fact that holds whatever the function is. -/
theorem Yields.known {α : Type} {P : FunctionState → Prop} {c : Prop} {m : Compile α}
    {Q : α → FunctionState → Prop} (h : c → Yields P m Q) : Yields (fun f => P f ∧ c) m Q :=
  fun s hs => h hs.2 s hs.1

theorem confines_overDone {left : Operand} {register : Int} (h : left = .temp ∨ left = .done) :
    Yields ((b.under register).Confined d) (pure left : Compile Operand) (b.Leaves d) :=
  .pure fun _ hf => ⟨hf.over, by rcases h with rfl | rfl <;> trivial⟩

/-! ## Names and unary operators -/

theorem confines_loadConstant (v : Value) (hd : d ≤ dest) (place : Position) :
    Yields (b.Confined d) (loadConstant v dest place) (b.Leaves d) :=
  (confines_constant (k := .value v) nofun).bind fun _ => confines_last rfl hd

theorem confines_loadName (s : String) (hd : d ≤ dest) (place : Position) :
    Yields (b.Confined d) (loadName s dest place) (b.Leaves d) := by
  have hload : ∀ k, Yields (b.Confined d) (do
      let _ ← emitAt place .loadConst dest k
      let load ← emitAt place .dot dest 0 dest
      return .member 0 dest load) (b.Leaves d) := fun k =>
    (confines_temp rfl hd).drop.bind fun _ => (confines_temp rfl hd).bind fun _ =>
      .pure fun _ h => h
  refine confines_get.bind fun state => ?_
  split
  · rename_i register hs
    refine Yields.consequence (P := fun f => b.Confined d f ∧ f.Declared register)
      (.local fun hr => ?_) (fun f h => ⟨h.1, h.2 ▸ (h.2 ▸ h.1.settled).resolve hs⟩) fun _ _ h => h
    exact (confines_temp rfl hd).bind fun load => .pure fun f h =>
      ⟨h.1.over, h.1.declared hr, h.2⟩
  · refine .consequence ?_ (fun _ h => h.1) fun _ _ h => h
    refine (confines_name s).bind fun k => ?_
    split
    · exact (confines_silent rfl).drop.bind fun _ => hload k
    · exact hload k

theorem confines_unary (hp : p.Confining) {op : Op} (hop : op.writes.2 = false) {power : Nat}
    (hpower : Power.expression ≤ power) (hdest : 2 ≤ dest) (hd : d ≤ dest) (place : Position) :
    Yields (b.Confined d) (unary p op power dest place) (b.Leaves d) :=
  (confines_operand hp hpower hdest hd).bind fun _ => confines_last hop hd

theorem confines_paren (hp : p.Confining) (hdest : 2 ≤ dest) (hd : d ≤ dest) :
    Yields (b.Confined d) (paren p dest) (b.Leaves d) := by
  refine yields_next.bind fun first => ?_
  have hinner : Yields (b.Confined d) (do
      let left ← p.expression first Power.expression dest
      expect (.mark .rParen)
      return left) (b.Leaves d) :=
    (confines_expression hp (le_refl _) hdest hd).bind fun left =>
      (yields_expect _).bind fun _ => .pure fun _ h => h
  dsimp only
  split
  · rename_i op hop
    refine yields_next.bind fun second => .ite (fun _ => ?_) fun _ =>
      (yields_pushBack _).bind fun _ => hinner
    refine confines_unary hp ?_ (by decide) hdest hd _
    unfold castOp? at hop
    split at hop <;> cases hop <;> rfl
  · exact hinner

/-! ## Lists -/

theorem confines_argumentsFrom (hp : p.Confining) (fuel : Nat) {register : Int}
    (hdest : 2 ≤ register) (hd : d ≤ register) :
    Yields (b.Confined d) (argumentsFrom p register fuel) fun _ => b.Confined d := by
  induction fuel generalizing register with
  | zero => exact yields_exhausted
  | succ fuel ih =>
    refine (confines_operand hp (by decide) hdest hd).bind fun _ => yields_next.bind fun t => ?_
    exact .ite (fun _ => ih (by omega) (by omega)) fun _ => .ite (fun _ => .pure fun _ h => h)
      fun _ => yields_fail _ _

theorem confines_arguments (hp : p.Confining) {first : Int} (hdest : 2 ≤ first) (hd : d ≤ first) :
    Yields (b.Confined d) (arguments p first) fun _ => b.Confined d :=
  yields_next.bind fun t => .ite (fun _ => .pure fun _ h => h) fun _ =>
    (yields_pushBack t).bind fun _ => confines_argumentsFrom hp _ hdest hd

theorem confines_arrayItems (hp : p.Confining) (fuel : Nat) {register : Int} (hdest : 2 ≤ register)
    (hd : d ≤ register) :
    Yields (b.Confined d) (arrayItems p register fuel) fun _ => b.Confined d := by
  induction fuel generalizing register with
  | zero => exact yields_exhausted
  | succ fuel ih =>
    refine yields_next.bind fun t => .ite (fun _ => .pure fun _ h => h) fun _ =>
      .ite (fun _ => ?_) fun _ => ?_
    · exact (confines_emit rfl hd).drop.bind fun _ => ih (by omega) (by omega)
    · refine (confines_expression hp (by decide) hdest hd).drop.bind fun _ =>
        yields_next.bind fun t => ?_
      exact .ite (fun _ => ih (by omega) (by omega)) fun _ => .ite (fun _ => .pure fun _ h => h)
        fun _ => yields_fail _ _

theorem confines_arrayLiteral (hp : p.Confining) (hdest : 2 ≤ dest) (hd : d ≤ dest)
    (place : Position) : Yields (b.Confined d) (arrayLiteral p dest place) (b.Leaves d) :=
  (confines_arrayItems hp _ (by omega) (by omega)).bind fun _ => confines_last rfl hd

theorem confines_dictKey (hp : p.Confining) (t : Token) {register : Int} (hdest : 2 ≤ register)
    (hd : d ≤ register) : Yields (b.Confined d) (dictKey p t register) fun _ => b.Confined d := by
  have hspelled : Yields (b.Confined d) (do
      let _ ← p.expression t Power.comma register
      let sep ← next
      if sep.kind = .mark .arrow || sep.kind = .mark .colon then return ()
      else fail (.expected (.sign .arrow) sep.kind) sep.position) fun _ => b.Confined d :=
    (confines_expression hp (by decide) hdest hd).drop.bind fun _ =>
      yields_next.bind fun _ => .ite (fun _ => .pure fun _ h => h) fun _ => yields_fail _ _
  unfold dictKey
  dsimp only
  split
  · refine yields_next.bind fun behind => .ite (fun _ => ?_) fun _ =>
      (yields_pushBack behind).bind fun _ => hspelled
    exact (confines_name _).bind fun _ => (confines_emit rfl hd).drop.bind fun _ =>
      .pure fun _ h => h
  · exact hspelled

theorem confines_dictEntries (hp : p.Confining) (fuel : Nat) {register : Int}
    (hdest : 2 ≤ register) (hd : d ≤ register) :
    Yields (b.Confined d) (dictEntries p register fuel) fun _ => b.Confined d := by
  induction fuel generalizing register with
  | zero => exact yields_exhausted
  | succ fuel ih =>
    refine yields_next.bind fun t => .ite (fun _ => .pure fun _ h => h) fun _ => ?_
    refine (confines_dictKey hp t hdest hd).bind fun _ => ?_
    refine (confines_operand hp (by decide) (by omega) (by omega)).bind fun _ =>
      yields_next.bind fun t => ?_
    exact .ite (fun _ => ih (by omega) (by omega)) fun _ => .ite (fun _ => .pure fun _ h => h)
      fun _ => yields_fail _ _

theorem confines_dictLiteral (hp : p.Confining) (hdest : 2 ≤ dest) (hd : d ≤ dest)
    (place : Position) : Yields (b.Confined d) (dictLiteral p dest place) (b.Leaves d) :=
  (confines_dictEntries hp _ (by omega) (by omega)).bind fun _ => confines_last rfl hd

/-! ## Targets -/

theorem above_gt (dest receiver key : Int) : dest < above dest receiver key := by
  unfold above
  omega

/-- The last two instructions of a write to a member. -/
theorem confines_set {place : Position} {receiver key t x : Int} (hd : d ≤ dest) :
    Yields (b.Confined d) (do
      let _ ← emitAt place .dotSet receiver key t
      let _ ← emitAt place .copy dest x
      return Operand.temp) (b.Leaves d) :=
  (confines_silent rfl).drop.bind fun _ => confines_last rfl hd

theorem confines_assign (hp : p.Confining) (left : Operand) {op? : Option Op}
    (hop : ∀ op ∈ op?, op.writes.2 = false) (hdest : 2 ≤ dest) (hd : d ≤ dest) (place : Position) :
    Yields (b.Leaves d left) (assign p left op? dest place) (b.Leaves d) := by
  have hpower : Power.expression ≤ Power.assignment - 1 := by decide
  have habove := above_gt dest
  unfold assign
  split
  · refine .slot fun hr hload => (confines_erase hload).bind fun _ => ?_
    refine (confines_operand hp hpower hdest hd).bind fun _ => ?_
    exact (confines_toLocal hr rfl).bind fun _ => confines_overDone (.inl rfl)
  · refine .slot fun hr hload => (confines_operand hp hpower (by omega) (by omega)).bind fun _ => ?_
    refine (confines_temp (hop _ rfl) hd).drop.bind fun _ => ?_
    exact (confines_toLocal hr rfl).bind fun _ => confines_overDone (.inl rfl)
  · rename_i receiver key load
    have := habove receiver key
    refine .member fun hload => (confines_erase hload).bind fun _ => ?_
    exact (confines_operand hp hpower (by omega) (by omega)).bind fun _ => confines_set hd
  · refine .member fun hload => (confines_retarget hload hd _ _).bind fun t => .known fun ht => ?_
    refine (confines_operand hp hpower (by omega) (by omega)).bind fun _ => ?_
    exact (confines_temp (hop _ rfl) (by omega)).drop.bind fun _ => confines_set hd
  · exact yields_fail _ _

theorem confines_stepBefore (hp : p.Confining) (op : Op) (hdest : 2 ≤ dest) (hd : d ≤ dest)
    (place : Position) :
    Yields (b.Confined d) (stepBefore p op dest place) (b.Leaves d) := by
  refine (confines_parse hp (by decide) hdest hd).bind fun left => ?_
  split
  · refine .slot fun hr hload => (confines_erase hload).bind fun _ => ?_
    exact (confines_stepLocal hr hd).bind fun _ => confines_overDone (.inl rfl)
  · refine .member fun hload => (confines_retarget hload hd _ _).bind fun t => .known fun ht => ?_
    exact (confines_temps (by omega) (by omega)).bind fun _ => confines_set hd
  · exact yields_fail _ _

theorem confines_stepAfter (left : Operand) (op : Op) (hd : d ≤ dest) (place : Position) :
    Yields (b.Leaves d left) (stepAfter left op dest place) (b.Leaves d) := by
  unfold stepAfter
  split
  · refine .slot fun hr hload => (confines_erase hload).bind fun _ => ?_
    exact (confines_stepLocal hr hd).bind fun _ => confines_overDone (.inl rfl)
  · refine .member fun hload => (confines_retarget hload hd _ _).bind fun t => .known fun ht => ?_
    exact (confines_temps (by omega) (by omega)).bind fun _ => confines_set hd
  · exact yields_fail _ _

theorem confines_delete (hp : p.Confining) (hdest : 2 ≤ dest) (hd : d ≤ dest) (place : Position) :
    Yields (b.Confined d) (delete p dest place) (b.Leaves d) := by
  refine (confines_parse hp (by decide) hdest hd).bind fun left => ?_
  split
  · refine .slot fun hr hload => (confines_erase hload).bind fun _ => ?_
    exact (confines_toLocal hr rfl).bind fun _ => confines_over (confines_temp rfl hd).drop
      |>.bind fun _ => confines_done (.inl rfl)
  · rename_i receiver key load
    refine .member fun hload => Yields.bind (Q := fun _ => b.Confined d) ?_ fun _ =>
      confines_last rfl hd
    exact confines_modify (F := fun _ => ⟨.delete, receiver, key, 0, place⟩) (fun _ => rfl)
      (fun _ => ⟨rfl, rfl, rfl⟩) hload fun _ _ hr => by cases hr
  · exact yields_fail _ _

/-! ## Choices -/

theorem confines_ternary (hp : p.Confining) (hdest : 2 ≤ dest) (hd : d ≤ dest)
    (place : Position) : Yields (b.Confined d) (ternary p dest place) (b.Leaves d) := by
  refine (confines_silent rfl).bind fun skip => .known fun hskip => ?_
  refine (confines_operand hp (by decide) hdest hd).bind fun _ => (yields_expect _).bind fun _ => ?_
  refine (confines_silent rfl).bind fun exit => .known fun hexit => confines_landing hskip ?_
  exact (confines_operand hp (by decide) hdest hd).bind fun _ =>
    confines_landing hexit (confines_done (.inl rfl))

theorem confines_shortCircuit (hp : p.Confining) {leave op decided : Op}
    (hleave : leave.writes = (false, false)) (hop : op.writes.2 = false)
    (hdecided : decided.writes.2 = false) {power : Nat} (hpower : Power.expression ≤ power)
    (hdest : 2 ≤ dest) (hd : d ≤ dest) (place : Position) :
    Yields (b.Confined d) (shortCircuit p leave op decided power dest place) (b.Leaves d) := by
  refine (confines_silent hleave).bind fun skip => .known fun hskip => ?_
  refine (confines_operand hp hpower (by omega) (by omega)).bind fun _ => ?_
  refine (confines_temp hop hd).drop.bind fun _ => ?_
  refine (confines_silent rfl).bind fun exit => .known fun hexit => confines_landing hskip ?_
  exact (confines_temp hdecided hd).drop.bind fun _ =>
    confines_landing hexit (confines_done (.inl rfl))

/-! ## Continuations -/

theorem confines_dotMember (hd : d ≤ dest) (place : Position) :
    Yields (b.Confined d) (dotMember dest place) (b.Leaves d) := by
  refine yields_next.bind fun t => ?_
  split
  · refine (confines_name _).bind fun _ => (confines_temp rfl (by omega)).drop.bind fun _ => ?_
    exact (confines_temp rfl hd).bind fun _ => .pure fun _ h => h
  · exact yields_fail _ _

theorem confines_indexMember (hp : p.Confining) (hdest : 2 ≤ dest) (hd : d ≤ dest)
    (place : Position) : Yields (b.Confined d) (indexMember p dest place) (b.Leaves d) := by
  refine (confines_operand hp (by decide) (by omega) (by omega)).bind fun _ =>
    (yields_expect _).bind fun _ => ?_
  exact (confines_temp rfl hd).bind fun _ => .pure fun _ h => h

theorem writes_of_binaryOp? {kind : Token.Kind} {op : Op} (h : kind.binaryOp? = some op) :
    op.writes.2 = false := by
  match kind with
  | .mark m => cases m <;> first | (cases h; rfl) | cases h
  | .keyword word => cases word <;> first | (cases h; rfl) | cases h
  | .number _ | .str _ | .ident _ | .finish => cases h

theorem writes_of_compoundOp? {kind : Token.Kind} {op : Op} (h : kind.compoundOp? = some op) :
    op.writes.2 = false := by
  match kind with
  | .mark m => cases m <;> first | (cases h; rfl) | cases h
  | .keyword _ | .number _ | .str _ | .ident _ | .finish => cases h

theorem confines_call (hp : p.Confining) (hdest : 2 ≤ dest) (hd : d ≤ dest) :
    Yields (b.Confined d) (do
      let behind ← arguments p (dest + 1)
      let _ ← emit .call dest (dest + 1) behind
      return Operand.temp) (b.Leaves d) :=
  (confines_arguments hp (by omega) (by omega)).bind fun _ => (confines_emit rfl hd).drop.bind
    fun _ => confines_done (.inl rfl)

theorem confines_trailing (hp : p.Confining) (t : Token) (left : Operand) (hdest : 2 ≤ dest)
    (hd : d ≤ dest) : Yields (b.Leaves d left) (trailing p t left dest) (b.Leaves d) := by
  have hforget : ∀ {m : Compile Operand}, Yields (b.Confined d) m (b.Leaves d) →
      Yields (b.Leaves d left) m (b.Leaves d) :=
    fun h => h.consequence (fun _ h => h.1) fun _ _ h => h
  unfold trailing
  dsimp only
  split
  · rename_i hop
    obtain ⟨-, hpower⟩ := goesOn_of_binaryOp? hop
    exact hforget ((confines_operand hp hpower (by omega) (by omega)).bind fun _ =>
      confines_last (writes_of_binaryOp? hop) hd)
  · rename_i op _ hop
    exact confines_assign hp left (fun op' h => by cases h; exact writes_of_compoundOp? hop) hdest
      hd _
  · split
    · exact confines_assign hp left (show ∀ op ∈ (none : Option Op), _ from nofun) hdest hd _
    · exact hforget (confines_parse hp (by decide) hdest hd)
    · exact hforget (confines_ternary hp hdest hd _)
    · rename_i hkind
      exact hforget (confines_shortCircuit hp rfl rfl rfl (by rw [hkind]; decide) hdest hd _)
    · rename_i hkind
      exact hforget (confines_shortCircuit hp rfl rfl rfl (by rw [hkind]; decide) hdest hd _)
    · exact confines_stepAfter left _ hd _
    · exact confines_stepAfter left _ hd _
    · exact hforget (confines_dotMember hd _)
    · exact hforget (confines_indexMember hp hdest hd _)
    · exact hforget (confines_call hp hdest hd)
    · exact yields_fail _ _

/-! ## Instances -/

theorem confines_classPath (hp : p.Confining) (hdest : 2 ≤ dest) (hd : d ≤ dest) (fuel : Nat)
    (fallback : Int) :
    Yields (b.Confined d) (classPath p fallback dest fuel) fun _ => b.Confined d := by
  induction fuel generalizing fallback with
  | zero => exact yields_exhausted
  | succ fuel ih =>
    refine yields_next.bind fun t => .ite (fun _ => ?_) fun _ =>
      (yields_pushBack t).bind fun _ => .pure fun _ h => h
    exact ((confines_trailing hp t .temp hdest hd).consequence (fun _ h => ⟨h, trivial⟩)
      fun _ _ h => h.1).bind fun _ => ih _

theorem confines_newInstance (hp : p.Confining) (hdest : 2 ≤ dest) (hd : d ≤ dest)
    (place : Position) : Yields (b.Confined d) (newInstance p dest place) (b.Leaves d) := by
  refine yields_next.bind fun t => ?_
  have hrest : ∀ fallback : Int, Yields (b.Confined d) (do
      let _ ← p.expression t Power.primary dest
      let fallback ← classPath p fallback dest p.budget
      let _ ← emitAt place .newObject dest dest fallback
      let t ← next
      if t.kind = .mark .lParen then
        let behind ← arguments p (dest + 1)
        let _ ← emitAt place .call dest (dest + 1) behind
      else
        pushBack t
        let _ ← emitAt place .call dest (dest + 1) (dest + 1)
      return .temp) (b.Leaves d) := by
    intro fallback
    refine (confines_expression hp (by decide) hdest hd).drop.bind fun _ => ?_
    refine (confines_classPath hp hdest hd _ fallback).bind fun _ =>
      (confines_temp rfl hd).drop.bind fun _ => yields_next.bind fun t => ?_
    dsimp only
    split
    · exact (confines_arguments hp (by omega) (by omega)).bind fun _ => confines_last rfl hd
    · exact (yields_pushBack t).bind fun _ => confines_last rfl hd
  split
  · exact (confines_name _).bind fun k => hrest k
  · exact hrest (-1)

/-! ## Functions -/

theorem confines_parameterDefault (hp : p.Confining) {register : Int} (hdest : 2 ≤ register)
    (hd : d ≤ register) (place : Position) (behind : Token) (defaults : Bool) :
    Yields (b.Confined d) (parameterDefault p register place behind defaults)
      fun _ => b.Confined d := by
  refine .ite (fun _ => ?_) fun _ => .ite (fun _ => yields_fail _ _) fun _ => ?_
  · exact (confines_operand hp (by decide) hdest hd).bind fun _ => yields_next.bind fun _ =>
      .pure fun _ h => h
  · exact (confines_temp rfl hd).drop.bind fun _ => .pure fun _ h => h

theorem confines_parameters (hp : p.Confining) (hdest : 2 ≤ dest) (hd : d ≤ dest) (fuel : Nat)
    (t : Token) (params : List String) (defaults : Bool) :
    Yields (b.Confined d) (parameters p dest fuel t params defaults) fun _ => b.Confined d := by
  induction fuel generalizing t params defaults with
  | zero => exact yields_exhausted
  | succ fuel ih =>
    refine (yields_parameterName t params).bind fun param => yields_next.bind fun behind => ?_
    refine (confines_parameterDefault hp (by omega) (by omega) _ behind defaults).bind fun r => ?_
    exact .ite (fun _ => yields_next.bind fun t => ih t _ _) fun _ =>
      .ite (fun _ => .pure fun _ h => h) fun _ => yields_fail _ _

theorem confines_parameterList (hp : p.Confining) (hdest : 2 ≤ dest) (hd : d ≤ dest) (t : Token) :
    Yields (b.Confined d) (parameterList p dest t) fun _ => b.Confined d :=
  .ite (fun _ => yields_next.bind fun t => .ite (fun _ => .pure fun _ h => h)
    fun _ => confines_parameters hp hdest hd _ t [] false) fun _ => yields_fail _ _

/-- The slot of a variable or function is the register of a local, if there is one. -/
def Slot (b : FunctionState) (d : Int) (slot : Option Int) (f : FunctionState) : Prop :=
  b.Confined d f ∧ ∀ r ∈ slot, f.Declared r

theorem confines_functionSlot (named : Option String) :
    Yields (b.Confined d) (functionSlot named) (Slot b d) := by
  have hnone : Yields (b.Confined d) (pure none : Compile (Option Int)) (Slot b d) :=
    .pure fun _ h => ⟨h, nofun⟩
  refine yields_get.bind fun state => ?_
  split
  · refine .ite (fun _ => hnone) fun _ => ?_
    rw [map_eq_pure_bind]
    refine (confines_declare _).bind fun _ => .pure fun _ h => ⟨h.1, fun r hr => ?_⟩
    cases hr
    exact h.2
  · exact hnone

theorem confines_blockBody (hp : p.Confining) (hd : d ≤ resultRegister) (fuel : Nat) :
    Yields (b.Confined d) (blockBody p fuel) fun _ => b.Confined d := by
  induction fuel with
  | zero => exact yields_exhausted
  | succ fuel ih =>
    refine yields_next.bind fun t => .ite (fun _ => .pure fun _ h => h) fun _ =>
      .ite (fun _ => yields_fail _ _) fun _ => ?_
    exact (yields_pushBack t).bind fun _ => (hp.statement b d hd).bind fun _ => ih

theorem confines_registerParameters (register : Int) (params : List String) :
    Yields (b.Confined d) (registerParameters register params) fun _ => b.Confined d := by
  induction params generalizing register with
  | nil => exact .pure fun _ h => h
  | cons t params ih =>
    exact (confines_name t).bind fun _ => (confines_emitSilent rfl).drop.bind fun _ => ih _

theorem confines_functionBody (hp : p.Confining) (hd : d ≤ resultRegister) (params : List String) :
    Yields (b.Confined d) (functionBody p params) fun _ => b.Confined d :=
  (confines_registerParameters (-1) params).bind fun _ => (yields_expect _).bind fun _ =>
    (confines_blockBody hp hd _).bind fun _ => (confines_emitSilent rfl).drop.bind fun _ =>
      .pure fun _ h => h

theorem settled_function (named : Option String) (params : List String) :
    (FunctionState.function named params).Settled := by
  have hfold : ∀ (params : List String) (f : FunctionState), f.Settled →
      (params.foldl (fun f param => (f.declare param).1) f).Settled := by
    intro params
    induction params with
    | nil => exact fun _ h => h
    | cons t params ih => exact fun f h => ih _ ((Confined.refl h 0).declare t).1.settled
  exact hfold params _ ⟨Int.negSucc_lt_zero 0, by simp, fun n inner h => by
    simp [Chunk.empty] at h⟩

theorem size_function (named : Option String) (params : List String) :
    (FunctionState.function named params).size = 0 := by
  have hfold : ∀ (params : List String) (f : FunctionState), 
      (params.foldl (fun f param => (f.declare param).1) f).size = f.size := by
    intro params
    induction params with
    | nil => exact fun _ => rfl
    | cons t params ih => 
      intro f
      refine (ih _).trans ?_
      unfold FunctionState.declare
      dsimp only
      split <;> rfl
  exact hfold params _

/-- The code of an inner function is made apart from that of the function around it. -/
theorem confines_functionChunk (hp : p.Confining) (named : Option String) (params : List String)
    {P : FunctionState → Prop} :
    Yields P (functionChunk p named params) fun inner f => P f ∧ inner.Restrained := by
  intro s hs a s' h
  obtain ⟨_, s₁, h₁, h⟩ := bind_eq_ok h
  cases h₁
  obtain ⟨_, s₂, h₂, h₃⟩ := bind_eq_ok h
  obtain ⟨-, henclosing, -⟩ :=
    (keeps_functionBody hp.keeping params _ (sound_function named params) trivial).1 _ _ h₂
  have hconfined := confines_functionBody hp (le_refl _) params _
    (.refl (settled_function named params) _) _ _ h₂
  rw [leaveFunction_cons henclosing] at h₃
  cases h₃
  exact ⟨hs, hconfined.restrained (size_function named params)⟩

theorem confines_makeFunction {chunk : Chunk} (hchunk : chunk.Restrained) (hd : d ≤ dest)
    (count : Nat) (place : Position) :
    Yields (b.Confined d) (makeFunction chunk dest count place) fun _ => b.Confined d :=
  (confines_constant fun _ h => by cases h; exact hchunk).bind fun _ =>
    (confines_temp rfl hd).drop.bind fun _ => (confines_temp rfl hd).drop.bind fun _ =>
      (confines_temp rfl hd).drop.bind fun _ => .pure fun _ h => h

/-- A step that confines code whatever is in front of it leaves a declared register declared. -/
theorem Yields.carry {α : Type} {m : Compile α} {slot : Option Int}
    (h : ∀ b, Yields (FunctionState.Confined b d) m fun _ => b.Confined d) :
    Yields (Slot b d slot) m fun _ => Slot b d slot :=
  fun s hs a s' heq => ⟨h b s hs.1 a s' heq, fun r hr =>
    (h (b.under r) s (hs.1.under (hs.2 r hr)) a s' heq).declared (hs.2 r hr).2⟩

/-- A variable is written: the register of a local, or a member of the activation. -/
theorem Yields.ofSlot {α : Type} {m : Option Int → Compile α} {slot : Option Int}
    (hsome : ∀ register, register < 0 → Yields ((b.under register).Confined d) (m (some register))
      fun _ => (b.under register).Confined d)
    (hnone : Yields (b.Confined d) (m none) fun _ => b.Confined d) :
    Yields (Slot b d slot) (m slot) fun _ => b.Confined d := by
  cases slot with
  | some register =>
    exact fun s hs a s' heq =>
      (hsome register (hs.2 register rfl).2 s (hs.1.under (hs.2 register rfl)) a s' heq).over
  | none => exact hnone.consequence (fun _ h => h.1) fun _ _ h => h

theorem confines_bindFunctionName (s : String) (slot : Option Int) (hd : d ≤ dest)
    (place : Position) :
    Yields (Slot b d slot) (bindFunctionName s slot dest place) fun _ => b.Confined d := by
  refine Yields.ofSlot (m := fun slot => bindFunctionName s slot dest place)
    (fun register hr => ?_) ?_
  · refine (confines_name s).bind fun _ => (confines_silent rfl).drop.bind fun _ => ?_
    exact (confines_toLocal hr rfl).bind fun _ => .pure fun _ h => h
  · refine (confines_name s).bind fun _ => (confines_temp rfl (by omega)).drop.bind fun _ => ?_
    exact (confines_silent rfl).drop.bind fun _ => .pure fun _ h => h

theorem confines_function (hp : p.Confining) (power : Nat) (hdest : 2 ≤ dest) (hd : d ≤ dest)
    (place : Position) : Yields (b.Confined d) (function p power dest place) (b.Leaves d) := by
  refine yields_functionName.bind fun r => ?_
  refine (confines_parameterList hp hdest hd r.2).bind fun params => ?_
  refine (confines_functionSlot r.1).bind fun slot => ?_
  refine (confines_functionChunk hp r.1 params).bind fun chunk => .known fun hchunk => ?_
  refine (Yields.carry fun _ => confines_makeFunction hchunk hd _ place).bind fun _ => ?_
  split
  · exact .pure fun _ h => ⟨h.1, trivial⟩
  · exact (confines_bindFunctionName _ slot hd place).bind fun _ =>
      confines_done (by split <;> simp)

/-! ## Statements -/

/-- A change of the blocks and the loops that the code does not see. -/
theorem confines_openBlock : Yields (b.Confined d) (modifyCurrent (·.openBlock))
    fun _ => b.Confined d :=
  .of_ok fun _ hs => ⟨(), _, rfl, hs.openBlock⟩

theorem confines_closeBlock : Yields (b.Confined d) (modifyCurrent (·.closeBlock))
    fun _ => b.Confined d :=
  .of_ok fun _ hs => ⟨(), _, rfl, hs.closeBlock⟩

/-- What runs inside a loop is behind the place where the loop was opened. -/
theorem confines_openLoop : Yields (b.Confined d) openLoop fun _ => b.enter.Confined d :=
  .of_ok fun _ hs => ⟨(), _, rfl, hs.enter⟩

theorem confines_closeLoop (exit resume : Nat) :
    Yields (b.enter.Confined d) (closeLoop exit resume) fun _ => b.Confined d :=
  .of_ok fun s hs => ⟨(), { s with current := s.current.close exit resume }, by
    unfold closeLoop FunctionState.close modifyCurrent
    rfl, hs.close exit resume⟩

theorem confines_block (hp : p.Confining) (hd : d ≤ resultRegister) :
    Yields (b.Confined d) (block p) (b.Leaves d) :=
  confines_openBlock.bind fun _ => (confines_blockBody hp hd _).bind fun _ =>
    confines_closeBlock.bind fun _ => confines_done (.inr rfl)

theorem confines_condition (hp : p.Confining) (hdest : 2 ≤ dest) (hd : d ≤ dest) :
    Yields (b.Confined d) (condition p dest) fun _ => b.Confined d :=
  (yields_expect _).bind fun _ => (confines_operand hp (le_refl _) hdest hd).bind fun _ =>
    yields_expect _

theorem confines_ifStatement (hp : p.Confining) (hd : d ≤ resultRegister) :
    Yields (b.Confined d) (ifStatement p resultRegister) (b.Leaves d) := by
  refine (confines_condition hp (by decide) hd).bind fun _ => ?_
  refine (confines_emitSilent rfl).bind fun skip => .known fun hskip => ?_
  refine (hp.statement b d hd).bind fun _ => yields_next.bind fun t =>
    .ite (fun _ => ?_) fun _ => ?_
  · refine (confines_emitSilent rfl).bind fun exit => .known fun hexit => confines_landing hskip ?_
    exact (hp.statement b d hd).bind fun _ => confines_landing hexit (confines_done (.inr rfl))
  · exact (yields_pushBack t).bind fun _ => confines_landing hskip (confines_done (.inr rfl))

theorem confines_whileStatement (hp : p.Confining) (hd : d ≤ resultRegister) :
    Yields (b.Confined d) (whileStatement p resultRegister) (b.Leaves d) := by
  refine confines_here.drop.bind fun top => (confines_condition hp (by decide) hd).bind fun _ => ?_
  refine (confines_emitSilent rfl).bind fun exit => .known fun hexit => ?_
  refine confines_openLoop.bind fun _ => (hp.statement _ d hd).bind fun _ => ?_
  refine (confines_emitSilent rfl).drop.bind fun _ => confines_here.drop.bind fun behind => ?_
  refine (confines_patch (b := b.enter) hexit _).bind fun _ => ?_
  exact (confines_closeLoop behind top).bind fun _ => confines_done (.inr rfl)

theorem confines_doStatement (hp : p.Confining) (hd : d ≤ resultRegister) :
    Yields (b.Confined d) (doStatement p resultRegister) (b.Leaves d) := by
  refine confines_here.drop.bind fun top => confines_openLoop.bind fun _ => ?_
  refine (hp.statement _ d hd).bind fun _ => (yields_expect _).bind fun _ => ?_
  refine confines_here.drop.bind fun check => ?_
  refine (confines_condition hp (by decide) hd).bind fun _ => ?_
  refine (confines_emitSilent rfl).drop.bind fun _ => confines_here.drop.bind fun behind => ?_
  exact (confines_closeLoop behind check).bind fun _ => confines_done (.inl rfl)

theorem confines_declareVariable (s : String) (k : Int) (place : Position) :
    Yields (b.Confined d) (declareVariable s k place) (Slot b d) := by
  refine yields_get.bind fun state => .ite (fun _ => .pure fun _ h => ⟨h, nofun⟩) fun _ => ?_
  refine (confines_declare s).bind fun register => .local fun hr => ?_
  exact (confines_silent rfl).drop.bind fun _ => .pure fun _ h =>
    ⟨h.over, fun r hr' => by cases hr'; exact h.declared hr⟩

theorem confines_storeVariable (slot : Option Int) (k : Int) (hd : d ≤ dest) (place : Position) :
    Yields (Slot b d slot) (storeVariable slot k dest place) fun _ => b.Confined d := by
  refine Yields.ofSlot (m := fun slot => storeVariable slot k dest place) (fun register hr => ?_) ?_
  · show Yields _ (emitAt place .copy register dest >>= fun _ => pure ()) _
    exact (confines_toLocal hr rfl).bind fun _ => .pure fun _ h => h
  · exact (confines_temp rfl (by omega)).drop.bind fun _ => (confines_silent rfl).drop.bind fun _ =>
      .pure fun _ h => h

theorem confines_clearVariable (slot : Option Int) (k : Int) (hd : d ≤ dest) (place : Position) :
    Yields (Slot b d slot) (clearVariable slot k dest place) fun _ => b.Confined d := by
  refine Yields.ofSlot (m := fun slot => clearVariable slot k dest place) (fun register hr => ?_) ?_
  · show Yields _ (emitAt place .loadVoid register >>= fun _ => pure ()) _
    exact (confines_toLocal hr rfl).bind fun _ => .pure fun _ h => h
  · exact (confines_temp rfl hd).drop.bind fun _ => (confines_silent rfl).drop.bind fun _ =>
      .pure fun _ h => h

theorem confines_initialise (hp : p.Confining) (slot : Option Int) (k : Int) (hdest : 2 ≤ dest)
    (hd : d ≤ dest) (place : Position) (t : Token) :
    Yields (Slot b d slot) (initialise p slot k dest place t) fun _ => b.Confined d := by
  refine .ite (fun _ => ?_) fun _ => ?_
  · refine (Yields.carry fun _ => confines_operand hp (by decide) hdest hd).bind fun _ => ?_
    exact (confines_storeVariable slot k hd place).bind fun _ => yields_next
  · exact (confines_clearVariable slot k hd place).bind fun _ => .pure fun _ h => h

theorem confines_declarations (hp : p.Confining) (hdest : 2 ≤ dest) (hd : d ≤ dest) (fuel : Nat) :
    Yields (b.Confined d) (declarations p dest fuel) (b.Leaves d) := by
  induction fuel with
  | zero => exact yields_exhausted
  | succ fuel ih =>
    refine yields_next.bind fun t => (yields_variableName t).bind fun s => ?_
    refine (confines_name s).bind fun k => (confines_declareVariable s k _).bind fun slot => ?_
    refine yields_next.bind fun t' => (confines_initialise hp slot k hdest hd _ t').bind fun t => ?_
    refine .ite (fun _ => ih) fun _ => .ite (fun _ => ?_) fun _ => yields_fail _ _
    exact (yields_pushBack t).bind fun _ => confines_done (.inl rfl)

theorem confines_forStart (hp : p.Confining) (hdest : 2 ≤ dest) (hd : d ≤ dest) :
    Yields (b.Confined d) (forStart p dest) fun _ => b.Confined d := by
  refine yields_next.bind fun t => .ite (fun _ => ?_) fun _ => .ite (fun _ => .pure fun _ h => h)
    fun _ => ?_
  · exact (confines_declarations hp hdest hd _).drop.bind fun _ => yields_expect _
  · exact (confines_expression hp (le_refl _) hdest hd).drop.bind fun _ => yields_expect _

/-- The jump that leaves a `for` loop, if there is one, lies behind a function. -/
theorem confines_forTest (hp : p.Confining) (hdest : 2 ≤ dest) (hd : d ≤ dest) :
    Yields (b.Confined d) (forTest p dest)
      fun exit f => b.Confined d f ∧ ∀ n ∈ exit, b.size ≤ n := by
  refine yields_next.bind fun t => .ite (fun _ => .pure fun _ h => ⟨h, nofun⟩) fun _ => ?_
  refine (confines_expression hp (le_refl _) hdest hd).drop.bind fun _ =>
    (yields_expect _).bind fun _ => ?_
  rw [map_eq_pure_bind]
  exact (confines_emitSilent rfl).bind fun n => .pure fun _ h => ⟨h.1, fun m hm => by
    cases hm
    exact h.2⟩

theorem confines_forStep (hp : p.Confining) (hdest : 2 ≤ dest) (hd : d ≤ dest) :
    Yields (b.Confined d) (forStep p dest) fun _ => b.Confined d :=
  yields_next.bind fun _ => .ite (fun _ => .pure fun _ h => h) fun _ =>
    (confines_expression hp (le_refl _) hdest hd).drop.bind fun _ => yields_expect _

theorem confines_patchExit {exit : Option Nat} (hexit : ∀ n ∈ exit, b.size ≤ n) (target : Nat) :
    Yields (b.Confined d) (patchExit exit target) fun _ => b.Confined d := by
  cases exit with
  | some n => exact confines_patch (hexit n rfl) target
  | none => exact .pure fun _ h => h

theorem confines_forStatement (hp : p.Confining) (hd : d ≤ resultRegister) :
    Yields (b.Confined d) (forStatement p resultRegister) (b.Leaves d) := by
  refine (yields_expect _).bind fun _ => confines_openBlock.bind fun _ => ?_
  refine (confines_forStart hp (by decide) hd).bind fun _ => confines_here.drop.bind fun top => ?_
  refine (confines_forTest hp (by decide) hd).bind fun exit => .known fun hexit => ?_
  refine (confines_emitSilent rfl).bind fun toBody => .known fun hbody => ?_
  refine confines_here.drop.bind fun step => (confines_forStep hp (by decide) hd).bind fun _ => ?_
  refine (confines_emitSilent rfl).drop.bind fun _ => confines_landing hbody ?_
  refine confines_openLoop.bind fun _ => (hp.statement _ d hd).bind fun _ => ?_
  refine (confines_emitSilent rfl).drop.bind fun _ => confines_here.drop.bind fun behind => ?_
  refine (confines_patchExit (b := b.enter) hexit _).bind fun _ => ?_
  refine (confines_closeLoop behind step).bind fun _ => ?_
  exact confines_closeBlock.bind fun _ => confines_done (.inr rfl)

theorem confines_returnStatement (hp : p.Confining) (hdest : 2 ≤ dest) (hd : d ≤ dest)
    (place : Position) :
    Yields (b.Confined d) (returnStatement p dest place) (b.Leaves d) := by
  refine Yields.bind (Q := fun _ => b.Confined d) ?_ fun _ => .ite (fun _ => ?_) fun _ => ?_
  · exact yields_next.bind fun t => (yields_pushBack t).bind fun _ => .pure fun _ h => h
  · exact (confines_silent rfl).drop.bind fun _ => confines_done (.inl rfl)
  · exact (confines_operand hp (le_refl _) hdest hd).bind fun _ => (confines_silent rfl).drop.bind
      fun _ => confines_done (.inl rfl)

theorem confines_leaveLoop (word : Keyword) (place : Position) :
    Yields (b.Confined d) (leaveLoop word place) (b.Leaves d) := by
  refine confines_get.bind fun state => ?_
  split
  · exact yields_fail _ _
  · rename_i labels loops hloops
    refine .of_ok fun s hs => ⟨_, _, rfl, ?_, trivial⟩
    obtain ⟨hs, heq⟩ := hs
    -- The jump is appended, so its index is that of the end.
    refine (hs.push (i := ⟨.jump, 0, 0, 0, place⟩) (fun r hr => by cases hr) rfl).relabel
      (heq ▸ hloops) fun n hn => ?_
    have hend : b.size ≤ s.current.chunk.code.size := hs.size
    by_cases hword : word = .breakWord
    · simp only [hword, if_true, List.mem_append, List.mem_singleton] at hn ⊢
      rcases hn with (hn | rfl) | hn
      · exact .inl (.inl hn)
      · exact .inr hend
      · exact .inl (.inr hn)
    · simp only [hword, if_false, List.mem_append, List.mem_singleton] at hn ⊢
      rcases hn with hn | hn | rfl
      · exact .inl (.inl hn)
      · exact .inl (.inr hn)
      · exact .inr hend

/-! ## Productions -/

theorem confines_leading (hp : p.Confining) (t : Token) {power : Nat}
    (hfits : Power.Fits power dest) (hd : d ≤ dest) :
    Yields (b.Confined d) (leading p t power dest) (b.Leaves d) := by
  have hdest : 2 ≤ dest := hfits.elim (·.2) fun h => h.2 ▸ le_refl _
  refine .ite (fun _ => yields_fail _ _) fun hstart => ?_
  -- A statement has the register for results.
  have hstatement : t.kind.startsStatement = true → dest = resultRegister := fun h =>
    hfits.elim (fun hle => absurd (by simp [h, hle.1]) hstart) (·.2)
  split
  · exact confines_loadConstant _ hd _
  · exact confines_loadConstant _ hd _
  · exact confines_loadName _ hd _
  · exact yields_fail _ _
  · rename_i sign hkind
    split
    all_goals first
      | exact confines_paren hp hdest hd
      | exact confines_arrayLiteral hp hdest hd _
      | exact confines_dictLiteral hp hdest hd _
      | exact confines_unary hp rfl (by decide) hdest hd _
      | exact confines_stepBefore hp _ hdest hd _
      | exact yields_fail _ _
      | exact confines_block hp (hstatement (by rw [hkind]; rfl) ▸ hd)
  · rename_i word hkind
    split
    all_goals first
      | exact confines_last rfl hd
      | exact confines_unary hp rfl (by decide) hdest hd _
      | exact yields_fail _ _
      | exact confines_function hp power hdest hd _
      | exact confines_newInstance hp hdest hd _
      | exact confines_delete hp hdest hd _
      | exact confines_declarations hp hdest hd _
      | exact confines_returnStatement hp hdest hd _
      | exact confines_leaveLoop _ _
      | (obtain rfl := hstatement (by rw [hkind]; rfl)
         first
          | exact confines_ifStatement hp hd
          | exact confines_whileStatement hp hd
          | exact confines_doStatement hp hd
          | exact confines_forStatement hp hd)

theorem confines_climb (hp : p.Confining) (power : Nat) (hdest : 2 ≤ dest) (hd : d ≤ dest)
    (fuel : Nat) (left : Operand) :
    Yields (b.Leaves d left) (climb p power dest fuel left) (b.Leaves d) := by
  induction fuel generalizing left with
  | zero => exact yields_exhausted
  | succ fuel ih =>
    refine yields_next.bind fun t => .ite (fun _ => ?_) fun _ => ?_
    · exact (yields_pushBack t).bind fun _ => .pure fun _ h => h
    · exact (confines_trailing hp t left hdest hd).bind fun left => ih left

theorem confines_statement (hp : p.Confining) (hd : d ≤ resultRegister) :
    Yields (b.Confined d) (statement p) fun _ => b.Confined d := by
  refine yields_next.bind fun t => .ite (fun _ => .pure fun _ h => h) fun _ =>
    .ite (fun _ => yields_pushBack t) fun _ => ?_
  refine (hp.expression t (.inr ⟨rfl, rfl⟩) b d hd).drop.bind fun left =>
    .ite (fun _ => .pure fun _ h => h) fun _ => yields_next.bind fun t => ?_
  exact .ite (fun _ => .pure fun _ h => h) fun _ => .ite (fun _ => yields_pushBack t)
    fun _ => yields_fail _ _

/-- The whole grammar is confined, however much fuel it has. -/
theorem confining_productions (fuel : Nat) : (productions fuel).Confining := by
  induction fuel with
  | zero => exact ⟨keeping_productions 0, fun _ _ _ _ _ _ _ => yields_exhausted,
      fun _ _ _ => yields_exhausted⟩
  | succ fuel ih =>
    refine ⟨keeping_productions _, fun first power dest hfits b d hd => ?_,
      fun b d hd => confines_statement ih hd⟩
    have hdest : 2 ≤ dest := hfits.elim (·.2) fun h => h.2 ▸ le_refl _
    exact (confines_leading ih first hfits hd).bind fun left =>
      .ite (fun _ => .pure fun _ h => h) fun _ => confines_climb ih power hdest hd _ left

theorem confines_scriptBody (hp : p.Confining) (hd : d ≤ resultRegister) (fuel : Nat) :
    Yields (b.Confined d) (scriptBody p fuel) fun _ => b.Confined d := by
  induction fuel with
  | zero => exact yields_exhausted
  | succ fuel ih =>
    refine yields_next.bind fun t => .ite (fun _ => .pure fun _ h => h) fun _ =>
      .ite (fun _ => yields_fail _ _) fun _ => ?_
    exact (yields_pushBack t).bind fun _ => (hp.statement b d hd).bind fun _ => ih

theorem confines_script (hp : p.Confining) :
    Yields (b.Confined resultRegister) (script p)
      fun c f => b.Confined resultRegister f ∧ c = f.chunk := by
  refine (confines_scriptBody hp (le_refl _) _).bind fun _ => ?_
  refine (confines_emitSilent rfl).drop.bind fun _ => ?_
  exact .of_ok fun s hs => ⟨_, s, rfl, hs, rfl⟩

end Compile

theorem FunctionState.settled_script : FunctionState.script.Settled :=
  ⟨Int.negSucc_lt_zero 0, by simp [FunctionState.script], fun n inner h => by
    simp [FunctionState.script, Chunk.empty] at h⟩

/-- No code of a script, at any depth, writes register 0 or 1. -/
theorem restrained_of_compile {source : String} {c : Chunk} (h : compile source = .ok c) :
    c.Restrained := by
  unfold compile at h
  dsimp only at h
  split at h
  · rename_i root s hrun
    cases h
    obtain ⟨hconfined, rfl⟩ := Compile.confines_script (Compile.confining_productions _) _
      (.refl FunctionState.settled_script _) _ _ hrun
    exact hconfined.restrained rfl
  · cases h

end ScriptEngine
