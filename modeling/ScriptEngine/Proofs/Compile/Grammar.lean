import ScriptEngine.Proofs.Compile.Keeps

/-!
# Every construct keeps the code sound

One lemma for each construct of the grammar, all under the assumption that the two entry points
keep code sound (`Productions.Keeping`). The fuel of the grammar is then removed by an induction
(`keeping_productions`), and a script that compiles is well formed at every depth
(`wellFormed_of_compile`).
-/

namespace ScriptEngine

/-- The entry points of the grammar keep code sound, and an expression leaves the load that its
operand refers to. -/
structure Productions.Keeping (p : Productions) : Prop where
  expression : ∀ first power dest,
    Compile.Keeps (fun _ => True) (p.expression first power dest) fun left c => Compile.Loaded c left
  statement : Compile.Keeps (fun _ => True) p.statement fun _ _ => True

namespace Compile

variable {p : Productions} {P : Chunk → Prop}

theorem keeps_parse (hp : p.Keeping) (power : Nat) (dest : Int) :
    Keeps (fun _ => True) (parse p power dest) fun left c => Loaded c left :=
  keeps_next.bind fun t => hp.expression t power dest

/-! ## Names and unary operators -/

theorem keeps_temp : Keeps P (pure .temp : Compile Operand) fun left c => Loaded c left :=
  .pure fun _ _ => trivial

theorem keeps_plain (hP : Lasting P) {op : Op} (h : op.isPlain = true) (place : Position)
    (a b c : Int) : Keeps P (emitAt place op a b c) fun _ => P :=
  keeps_emitAt_forget hP fun _ _ _ => Chunk.admits_plain h _ _ _ _ _

/-- A plain instruction whose value is a temporary. -/
theorem keeps_plain_temp {op : Op} (h : op.isPlain = true) (place : Position) (a b c : Int) :
    Keeps P (emitAt place op a b c >>= fun _ => pure .temp) fun left c => Loaded c left :=
  Keeps.bind (Q := fun _ _ => True) (keeps_plain lasting_true h place a b c).drop
    fun _ => keeps_temp

theorem keeps_loadConstant {v : Value} (hv : Chunk.Pooled (.value v)) (dest : Int)
    (place : Position) :
    Keeps (fun _ => True) (loadConstant v dest place) fun left c => Loaded c left :=
  (keeps_constant lasting_true hv).bind fun k =>
    (keeps_loadConst lasting_true k dest place).bind fun _ => keeps_temp

theorem keeps_readName (t : String) (dest : Int) (place : Position) :
    Keeps (fun _ => True) (loadName t dest place) fun left c => Loaded c left := by
  refine keeps_get.bind fun state => ?_
  split
  · refine (keeps_emitAt lasting_true fun _ _ _ => Chunk.admits_plain rfl _ _ _ _ _).bind
      fun load => .pure fun _ h => ?_
    exact ⟨_, h.1, rfl⟩
  · refine (keeps_name lasting_true t).bind fun k => ?_
    have hrest : Keeps (fun c => c.nameAt? k = some t ∧ True)
        (do
          let _ ← emitAt place .loadConst dest k
          let load ← emitAt place .dot dest 0 dest
          return Operand.member 0 dest load) fun left c => Loaded c left := by
      refine (keeps_loadName lasting_true k dest t place).bind fun _ => ?_
      refine (keeps_emitAt ((lasting_name k t).and lasting_true) fun _ _ _ =>
        Chunk.admits_plain rfl _ _ _ _ _).bind fun load => .pure fun _ h => ?_
      exact ⟨_, h.1, rfl, rfl, rfl⟩
    refine .ite (fun _ => ?_) fun _ => hrest
    exact (keeps_emitAt_forget ((lasting_name k t).and lasting_true) fun _ _ h =>
      Chunk.admits_captureUpvalue h.1 _).bind fun _ => hrest

theorem keeps_unary (hp : p.Keeping) {op : Op} (h : op.isPlain = true) (power : Nat) (dest : Int)
    (place : Position) :
    Keeps (fun _ => True) (unary p op power dest place) fun left c => Loaded c left :=
  (keeps_parse hp power dest).bind fun _ => keeps_plain_temp h _ _ _ _

theorem castOp?_isPlain {kind : Token.Kind} {op : Op} (h : castOp? kind = some op) :
    op.isPlain = true := by
  unfold castOp? at h
  split at h <;> cases h <;> rfl

theorem keeps_paren (hp : p.Keeping) (dest : Int) :
    Keeps (fun _ => True) (paren p dest) fun left c => Loaded c left := by
  refine keeps_next.bind fun first => ?_
  have hinner : Keeps (fun _ => True)
      (do
        let left ← p.expression first Power.expression dest
        expect (.mark .rParen)
        return left) fun left c => Loaded c left :=
    (hp.expression first _ dest).bind fun left =>
      (keeps_expect _).bind fun _ => .pure fun _ h => h
  dsimp only
  split
  · rename_i op hop
    refine keeps_next.bind fun second => .ite (fun _ => ?_) fun _ => ?_
    · exact keeps_unary hp (castOp?_isPlain hop) _ _ _
    · exact (keeps_pushBack second).bind fun _ => hinner
  · exact hinner

/-! ## Lists -/

theorem keeps_argumentsFrom (hp : p.Keeping) (fuel : Nat) (register : Int) :
    Keeps (fun _ => True) (argumentsFrom p register fuel) fun _ _ => True := by
  induction fuel generalizing register with
  | zero => exact keeps_exhausted
  | succ fuel ih =>
    refine (keeps_parse hp _ register).drop.bind fun _ => keeps_next.bind fun t => ?_
    exact .ite (fun _ => ih _) fun _ => .ite (fun _ => .pure fun _ _ => trivial) fun _ =>
      keeps_fail _ _

theorem keeps_arguments (hp : p.Keeping) (first : Int) :
    Keeps (fun _ => True) (arguments p first) fun _ _ => True :=
  keeps_next.bind fun t => .ite (fun _ => .pure fun _ _ => trivial) fun _ =>
    (keeps_pushBack t).bind fun _ => keeps_argumentsFrom hp _ _

theorem keeps_arrayItems (hp : p.Keeping) (fuel : Nat) (register : Int) :
    Keeps (fun _ => True) (arrayItems p register fuel) fun _ _ => True := by
  induction fuel generalizing register with
  | zero => exact keeps_exhausted
  | succ fuel ih =>
    refine keeps_next.bind fun t => .ite (fun _ => .pure fun _ _ => trivial) fun _ =>
      .ite (fun _ => ?_) fun _ => ?_
    · exact (keeps_emit lasting_true fun _ _ _ _ => Chunk.admits_plain rfl _ _ _ _ _).bind
        fun _ => ih _
    · refine (hp.expression t _ register).drop.bind fun _ => keeps_next.bind fun t => ?_
      exact .ite (fun _ => ih _) fun _ => .ite (fun _ => .pure fun _ _ => trivial) fun _ =>
        keeps_fail _ _

theorem keeps_arrayLiteral (hp : p.Keeping) (dest : Int) (place : Position) :
    Keeps (fun _ => True) (arrayLiteral p dest place) fun left c => Loaded c left :=
  (keeps_arrayItems hp _ _).bind fun _ => keeps_plain_temp rfl _ _ _ _

theorem keeps_dictKey (hp : p.Keeping) (t : Token) (register : Int) :
    Keeps (fun _ => True) (dictKey p t register) fun _ _ => True := by
  have hspelled : Keeps (fun _ => True)
      (do
        let _ ← p.expression t Power.comma register
        let sep ← next
        if sep.kind = .mark .arrow || sep.kind = .mark .colon then return ()
        else fail (.expected (.sign .arrow) sep.kind) sep.position) fun _ _ => True :=
    (hp.expression t _ register).drop.bind fun _ => keeps_next.bind fun _ =>
      .ite (fun _ => .pure fun _ _ => trivial) fun _ => keeps_fail _ _
  unfold dictKey
  dsimp only
  split
  · rename_i s _
    refine keeps_next.bind fun behind => .ite (fun _ => ?_) fun _ => ?_
    · refine (keeps_name lasting_true s).bind fun k => ?_
      refine (keeps_emit ((lasting_name k s).and lasting_true) fun _ _ _ h =>
        Chunk.admits_loadConst (Chunk.constantAt?_isSome_of_nameAt? h.1) _ _).bind fun _ => ?_
      exact .pure fun _ _ => trivial
    · exact (keeps_pushBack behind).bind fun _ => hspelled
  · exact hspelled

theorem keeps_dictEntries (hp : p.Keeping) (fuel : Nat) (register : Int) :
    Keeps (fun _ => True) (dictEntries p register fuel) fun _ _ => True := by
  induction fuel generalizing register with
  | zero => exact keeps_exhausted
  | succ fuel ih =>
    refine keeps_next.bind fun t => .ite (fun _ => .pure fun _ _ => trivial) fun _ => ?_
    refine (keeps_dictKey hp t register).bind fun _ => (keeps_parse hp _ _).drop.bind fun _ =>
      keeps_next.bind fun t => ?_
    exact .ite (fun _ => ih _) fun _ => .ite (fun _ => .pure fun _ _ => trivial) fun _ =>
      keeps_fail _ _

theorem keeps_dictLiteral (hp : p.Keeping) (dest : Int) (place : Position) :
    Keeps (fun _ => True) (dictLiteral p dest place) fun left c => Loaded c left :=
  (keeps_dictEntries hp _ _).bind fun _ => keeps_plain_temp rfl _ _ _ _

/-! ## Targets -/

theorem keeps_assign (hp : p.Keeping) (left : Operand) {op? : Option Op}
    (hop : ∀ op, op? = some op → op.isPlain = true) (dest : Int) (place : Position) :
    Keeps (Loaded · left) (assign p left op? dest place) fun left c => Loaded c left := by
  -- The last two instructions of a write to a member.
  have hset : ∀ receiver key t : Int, Keeps (fun _ => True)
      (do
        let _ ← emitAt place .dotSet receiver key t
        let _ ← emitAt place .copy dest t
        return Operand.temp) fun left c => Loaded c left := fun receiver key t =>
    (keeps_plain lasting_true rfl _ _ _ _).bind fun _ => keeps_plain_temp rfl _ _ _ _
  unfold assign
  split
  · refine (keeps_erase_slot _ _).bind fun _ => (keeps_parse hp _ _).drop.bind fun _ => ?_
    exact keeps_plain_temp rfl _ _ _ _
  · rename_i register _ op
    refine (keeps_parse hp _ _).drop.bind fun _ => ?_
    refine (keeps_plain lasting_true (hop op rfl) _ _ _ _).bind fun _ => ?_
    exact keeps_plain_temp rfl _ _ _ _
  · refine (keeps_erase_member _ _ _).bind fun _ => (keeps_parse hp _ _).drop.bind fun _ => ?_
    exact hset _ _ _
  · rename_i receiver key load op
    refine (keeps_retarget dest receiver key load).bind fun t => ?_
    refine (keeps_parse hp _ _).drop.bind fun _ => ?_
    exact (keeps_plain lasting_true (hop op rfl) _ _ _ _).bind fun _ => hset _ _ _
  · exact keeps_fail _ _

theorem keeps_stepBefore (hp : p.Keeping) {op : Op} (hop : op.isPlain = true) (dest : Int)
    (place : Position) :
    Keeps (fun _ => True) (stepBefore p op dest place) fun left c => Loaded c left := by
  refine (keeps_parse hp _ dest).bind fun left => ?_
  split
  · exact (keeps_erase_slot _ _).bind fun _ => keeps_plain_temp hop _ _ _ _
  · refine (keeps_retarget dest _ _ _).bind fun t => ?_
    refine (keeps_plain lasting_true hop _ _ _ _).bind fun _ => ?_
    exact (keeps_plain lasting_true rfl _ _ _ _).bind fun _ => keeps_plain_temp rfl _ _ _ _
  · exact keeps_fail _ _

theorem keeps_stepAfter (left : Operand) {op : Op} (hop : op.isPlain = true) (dest : Int)
    (place : Position) :
    Keeps (Loaded · left) (stepAfter left op dest place) fun left c => Loaded c left := by
  unfold stepAfter
  split
  · exact (keeps_erase_slot _ _).bind fun _ => keeps_plain_temp hop _ _ _ _
  · refine (keeps_retarget dest _ _ _).bind fun t => ?_
    refine (keeps_plain lasting_true hop _ _ _ _).bind fun _ => ?_
    exact (keeps_plain lasting_true rfl _ _ _ _).bind fun _ => keeps_plain_temp rfl _ _ _ _
  · exact keeps_fail _ _

theorem keeps_delete (hp : p.Keeping) (dest : Int) (place : Position) :
    Keeps (fun _ => True) (delete p dest place) fun left c => Loaded c left := by
  refine (keeps_parse hp _ dest).bind fun left => ?_
  split
  · refine (keeps_erase_slot _ _).bind fun _ => ?_
    exact (keeps_plain lasting_true rfl _ _ _ _).bind fun _ => keeps_plain_temp rfl _ _ _ _
  · exact (keeps_replace_delete _ _ _ _).bind fun _ => keeps_plain_temp rfl _ _ _ _
  · exact (keeps_fail (Q := fun _ _ => True) _ _).bind fun _ => keeps_plain_temp rfl _ _ _ _

/-! ## Choices -/

/-- A jump whose target is not known yet. -/
theorem keeps_openJump (place : Position) :
    Keeps (fun _ => True) (emitAt place .jump 0) fun _ _ => True :=
  keeps_emitAt_forget lasting_true fun _ hd _ => Chunk.admits_jump hd.landing_zero _

theorem keeps_openJumpIf {op : Op} (hop : op = .jumpFalse ∨ op = .jumpTrue) (place : Position)
    (r : Int) : Keeps (fun _ => True) (emitAt place op r) fun _ _ => True :=
  keeps_emitAt_forget lasting_true fun _ hd _ => Chunk.admits_jumpIf hop hd.landing_zero _ _

theorem keeps_ternary (hp : p.Keeping) (dest : Int) (place : Position) :
    Keeps (fun _ => True) (ternary p dest place) fun left c => Loaded c left := by
  refine (keeps_openJumpIf (.inl rfl) place dest).bind fun skip => ?_
  refine (keeps_parse hp _ dest).drop.bind fun _ => (keeps_expect _).bind fun _ => ?_
  refine (keeps_openJump place).bind fun exit => keeps_here.bind fun t => ?_
  refine (keeps_patch lasting_true skip t).bind fun _ => ?_
  refine (keeps_parse hp _ dest).drop.bind fun _ => keeps_here.bind fun t => ?_
  exact (keeps_patch lasting_true exit t).bind fun _ => keeps_temp

theorem keeps_shortCircuit (hp : p.Keeping) {leave op decided : Op}
    (hleave : leave = .jumpFalse ∨ leave = .jumpTrue) (hop : op.isPlain = true)
    (hdecided : decided.isPlain = true) (power : Nat) (dest : Int) (place : Position) :
    Keeps (fun _ => True) (shortCircuit p leave op decided power dest place)
      fun left c => Loaded c left := by
  refine (keeps_openJumpIf hleave place dest).bind fun skip => ?_
  refine (keeps_parse hp _ _).drop.bind fun _ => ?_
  refine (keeps_plain lasting_true hop _ _ _ _).bind fun _ => ?_
  refine (keeps_openJump place).bind fun exit => keeps_here.bind fun t => ?_
  refine (keeps_patch lasting_true skip t).bind fun _ => ?_
  refine (keeps_plain lasting_true hdecided _ _ _ _).drop.bind fun _ => keeps_here.bind fun t => ?_
  exact (keeps_patch lasting_true exit t).bind fun _ => keeps_temp

/-! ## Continuations -/

theorem keeps_dotMember (dest : Int) (place : Position) :
    Keeps (fun _ => True) (dotMember dest place) fun left c => Loaded c left := by
  refine keeps_next.bind fun t => ?_
  split
  · rename_i s _
    refine (keeps_name lasting_true s).bind fun k => ?_
    refine (keeps_loadName lasting_true k _ s place).bind fun _ => ?_
    refine (keeps_emitAt ((lasting_name k s).and lasting_true) fun _ _ _ =>
      Chunk.admits_plain rfl _ _ _ _ _).bind fun load => .pure fun _ h => ?_
    exact ⟨_, h.1, rfl, rfl, rfl⟩
  · exact keeps_fail _ _

theorem keeps_indexMember (hp : p.Keeping) (dest : Int) (place : Position) :
    Keeps (fun _ => True) (indexMember p dest place) fun left c => Loaded c left := by
  refine (keeps_parse hp _ _).drop.bind fun _ => (keeps_expect _).bind fun _ => ?_
  refine (keeps_emitAt lasting_true fun _ _ _ => Chunk.admits_plain rfl _ _ _ _ _).bind
    fun load => .pure fun _ h => ?_
  exact ⟨_, h.1, rfl, rfl, rfl⟩

theorem binaryOp?_isPlain {kind : Token.Kind} {op : Op} (h : kind.binaryOp? = some op) :
    op.isPlain = true := by
  unfold Token.Kind.binaryOp? at h
  split at h
  · split at h <;> cases h <;> rfl
  · cases h
    rfl
  · cases h

theorem compoundOp?_isPlain {kind : Token.Kind} {op : Op} (h : kind.compoundOp? = some op) :
    op.isPlain = true := by
  unfold Token.Kind.compoundOp? at h
  split at h
  · split at h <;> cases h <;> rfl
  · cases h

theorem keeps_call (hp : p.Keeping) (dest : Int) :
    Keeps (fun _ => True)
      (do
        let behind ← arguments p (dest + 1)
        let _ ← emit .call dest (dest + 1) behind
        return Operand.temp) fun left c => Loaded c left :=
  (keeps_arguments hp _).bind fun _ =>
    (keeps_emit lasting_true fun _ _ _ _ => Chunk.admits_plain rfl _ _ _ _ _).bind fun _ =>
      keeps_temp

theorem keeps_trailing (hp : p.Keeping) (t : Token) (left : Operand) (dest : Int) :
    Keeps (Loaded · left) (trailing p t left dest) fun left c => Loaded c left := by
  have hforget : ∀ {m : Compile Operand},
      Keeps (fun _ => True) m (fun left c => Loaded c left) →
        Keeps (Loaded · left) m fun left c => Loaded c left :=
    fun h => h.consequence (fun _ _ => trivial) fun _ _ h => h
  unfold trailing
  dsimp only
  split
  · rename_i op hop
    refine hforget ((keeps_parse hp _ _).bind fun _ => ?_)
    exact keeps_plain_temp (binaryOp?_isPlain hop) _ _ _ _
  · rename_i op _ hop
    refine keeps_assign hp left (fun op' h => ?_) _ _
    cases h
    exact compoundOp?_isPlain hop
  · split
    · exact keeps_assign hp left (fun _ h => by cases h) _ _
    · exact hforget (keeps_parse hp _ _)
    · exact hforget (keeps_ternary hp _ _)
    · exact hforget (keeps_shortCircuit hp (.inl rfl) rfl rfl _ _ _)
    · exact hforget (keeps_shortCircuit hp (.inr rfl) rfl rfl _ _ _)
    · exact keeps_stepAfter left rfl _ _
    · exact keeps_stepAfter left rfl _ _
    · exact hforget (keeps_dotMember _ _)
    · exact hforget (keeps_indexMember hp _ _)
    · exact hforget (keeps_call hp _)
    · exact keeps_fail _ _

/-! ## Instances -/

/-- The fallback of an instance: none, or a name among the constants. -/
def Fallback (k : Int) (c : Chunk) : Prop :=
  k = -1 ∨ (c.nameAt? k).isSome

theorem lasting_fallback (k : Int) : Lasting (Fallback k) := by
  intro c d h hk
  refine hk.imp_right fun hs => ?_
  obtain ⟨s, hs⟩ := Option.isSome_iff_exists.1 hs
  rw [h.nameAt hs]
  rfl

theorem keeps_classPath (hp : p.Keeping) (dest : Int) (fuel : Nat) (k : Int) :
    Keeps (Fallback k) (classPath p k dest fuel) Fallback := by
  induction fuel generalizing k with
  | zero => exact keeps_exhausted
  | succ fuel ih =>
    refine keeps_next.bind fun t => .ite (fun _ => ?_) fun _ => ?_
    · refine Keeps.bind (Q := fun _ _ => True) ?_ fun _ =>
        (ih (-1)).consequence (fun _ _ => .inl rfl) fun _ _ h => h
      exact (keeps_trailing hp t .temp dest).consequence (fun _ _ => trivial) fun _ _ _ => trivial
    · exact (keeps_pushBack t).bind fun _ => .pure fun _ h => h

theorem keeps_newInstance (hp : p.Keeping) (dest : Int) (place : Position) :
    Keeps (fun _ => True) (newInstance p dest place) fun left c => Loaded c left := by
  refine keeps_next.bind fun t => ?_
  have hrest : ∀ k, Keeps (Fallback k)
      (do
        let _ ← p.expression t Power.primary dest
        let k ← classPath p k dest p.budget
        let _ ← emitAt place .newObject dest dest k
        let t ← next
        if t.kind = .mark .lParen then
          let behind ← arguments p (dest + 1)
          let _ ← emitAt place .call dest (dest + 1) behind
          return Operand.temp
        else
          pushBack t
          let _ ← emitAt place .call dest (dest + 1) (dest + 1)
          return Operand.temp) fun left c => Loaded c left := by
    intro k
    refine ((hp.expression t _ dest).carry (lasting_fallback k)).bind fun _ => ?_
    refine (keeps_classPath hp dest _ k).bind fun k => ?_
    refine Keeps.bind (Q := fun _ _ => True) ((keeps_emitAt_forget (lasting_fallback k)
      fun _ _ h => Chunk.admits_newObject h _ _).consequence (fun _ h => h)
        fun _ _ _ => trivial) fun _ => ?_
    refine keeps_next.bind fun t => .ite (fun _ => ?_) fun _ => ?_
    · exact (keeps_arguments hp _).bind fun _ => keeps_plain_temp rfl _ _ _ _
    · exact (keeps_pushBack t).bind fun _ => keeps_plain_temp rfl _ _ _ _
  split
  · rename_i s _
    refine (keeps_name lasting_true s).bind fun k => (hrest k).consequence (fun c h => ?_)
      fun _ _ h => h
    exact .inr (by rw [h.1]; rfl)
  · exact (hrest (-1)).consequence (fun _ _ => .inl rfl) fun _ _ h => h

/-! ## Functions -/

theorem keeps_parameterName (t : Token) (params : List String) :
    Keeps (fun _ => True) (parameterName t params) fun _ _ => True := by
  unfold parameterName
  split
  · exact .ite (fun _ => keeps_fail _ _) fun _ => .pure fun _ _ => trivial
  · exact keeps_fail _ _

theorem keeps_parameterDefault (hp : p.Keeping) (register : Int) (place : Position)
    (behind : Token) (defaults : Bool) :
    Keeps (fun _ => True) (parameterDefault p register place behind defaults)
      fun _ _ => True := by
  refine .ite (fun _ => ?_) fun _ => .ite (fun _ => keeps_fail _ _) fun _ => ?_
  · exact (keeps_parse hp _ _).drop.bind fun _ => keeps_next.bind fun _ =>
      .pure fun _ _ => trivial
  · exact (keeps_plain lasting_true rfl _ _ _ _).bind fun _ => .pure fun _ _ => trivial

theorem keeps_parameters (hp : p.Keeping) (dest : Int) (fuel : Nat) (t : Token)
    (params : List String) (defaults : Bool) :
    Keeps (fun _ => True) (parameters p dest fuel t params defaults) fun _ _ => True := by
  induction fuel generalizing t params defaults with
  | zero => exact keeps_exhausted
  | succ fuel ih =>
    refine (keeps_parameterName t params).bind fun param => keeps_next.bind fun behind => ?_
    refine (keeps_parameterDefault hp _ _ behind defaults).bind fun r => ?_
    exact .ite (fun _ => keeps_next.bind fun t => ih t _ _) fun _ =>
      .ite (fun _ => .pure fun _ _ => trivial) fun _ => keeps_fail _ _

theorem keeps_blockBody (hp : p.Keeping) (fuel : Nat) :
    Keeps (fun _ => True) (blockBody p fuel) fun _ _ => True := by
  induction fuel with
  | zero => exact keeps_exhausted
  | succ fuel ih =>
    refine keeps_next.bind fun t => .ite (fun _ => .pure fun _ _ => trivial) fun _ =>
      .ite (fun _ => keeps_fail _ _) fun _ => ?_
    exact (keeps_pushBack t).bind fun _ => hp.statement.bind fun _ => ih

theorem keeps_registerParameters (params : List String) {register : Int} (hr : register < 0) :
    Keeps (fun _ => True) (registerParameters register params) fun _ _ => True := by
  induction params generalizing register with
  | nil => exact .pure fun _ _ => trivial
  | cons t params ih =>
    refine (keeps_name lasting_true t).bind fun k => ?_
    refine Keeps.bind (Q := fun _ _ => True) ?_ fun _ => ih (by omega)
    exact (keeps_emit ((lasting_name k t).and lasting_true) fun _ _ _ h =>
      Chunk.admits_registerLocal h.1 hr _).consequence (fun _ h => h) fun _ _ _ => trivial

/-- A return at the end of sound code makes all of it well formed. -/
theorem keeps_finish (r : Int) :
    Keeps (fun _ => True) (emit .ret r) fun _ c => ∀ d, c.Contains d → d.WellFormed := by
  refine .of_ok fun s hs _ => ?_
  have hplain : Op.ret.isPlain = true := rfl
  have hadm := Chunk.admits_plain hplain s.current.chunk r 0 0 s.position
  have hsound := hs.code.emit hadm
  exact ⟨_, _, rfl, ⟨hsound, hs.next, hs.locals⟩, rfl, Chunk.extends_emit rfl, fun d hd =>
    hsound.wellFormed_of_contains (hs.code.wellFormed_emit_ret r s.position) hd⟩

theorem keeps_functionBody (hp : p.Keeping) (params : List String) :
    Keeps (fun _ => True) (functionBody p params) fun _ c => ∀ d, c.Contains d → d.WellFormed := by
  refine (keeps_registerParameters params (by decide)).bind fun _ => ?_
  refine (keeps_expect _).bind fun _ => ?_
  refine (keeps_blockBody hp _).bind fun _ => (keeps_finish _).bind fun _ => .pure fun _ h => h

theorem keeps_functionName : Keeps (fun _ => True) functionName fun _ _ => True := by
  refine keeps_next.bind fun first => ?_
  split
  · exact keeps_next.bind fun _ => .pure fun _ _ => trivial
  · exact .pure fun _ _ => trivial

theorem keeps_parameterList (hp : p.Keeping) (dest : Int) (t : Token) :
    Keeps (fun _ => True) (parameterList p dest t) fun _ _ => True :=
  .ite (fun _ => keeps_next.bind fun t => .ite (fun _ => .pure fun _ _ => trivial)
    fun _ => keeps_parameters hp dest _ t [] false) fun _ => keeps_fail _ _

/-- A register for a function is below zero. -/
theorem keeps_functionSlot (named : Option String) :
    Keeps (fun _ => True) (functionSlot named) fun slot _ => (∀ r ∈ slot, r < 0) ∧ True := by
  refine keeps_get.bind fun state => ?_
  split
  · refine .ite (fun _ => .pure fun _ _ => ⟨nofun, trivial⟩) fun _ => ?_
    refine (keeps_declare lasting_true _).bind fun _ => .pure fun _ h => ⟨fun r hr => ?_, trivial⟩
    cases hr
    exact h.1
  · exact .pure fun _ _ => ⟨nofun, trivial⟩

theorem keeps_functionChunk (hp : p.Keeping) (named : Option String) (params : List String) :
    Keeps (fun _ => True) (functionChunk p named params)
      fun inner _ => (∀ d, inner.Contains d → d.WellFormed) ∧ True :=
  Keeps.nested (sound_function named params) (keeps_functionBody hp params)

/-- A function is made by three instructions that no jump can come between. -/
theorem keeps_makeFunction {inner : Chunk} (hw : ∀ d, inner.Contains d → d.WellFormed)
    (dest : Int) (count : Nat) (place : Position) :
    Keeps (fun _ => True) (makeFunction inner dest count place) fun _ _ => True := by
  refine (keeps_template lasting_true hw).bind fun k => .of_ok fun s hs hk => ?_
  obtain ⟨hs', hext⟩ := Chunk.Sound.emitFunction hs.code hk.1
  exact ⟨_, _, rfl, ⟨hs', hs.next, hs.locals⟩, rfl, hext, trivial⟩

theorem keeps_bindFunctionName (s : String) {slot : Option Int} (hslot : ∀ r ∈ slot, r < 0)
    (dest : Int) (place : Position) :
    Keeps (fun _ => True) (bindFunctionName s slot dest place) fun _ _ => True := by
  refine (keeps_name lasting_true s).bind fun k => ?_
  split
  · rename_i register
    refine (keeps_emitAt_forget ((lasting_name k s).and lasting_true) fun _ _ h =>
      Chunk.admits_registerLocal h.1 (hslot register rfl) _).bind fun _ => ?_
    exact (keeps_plain lasting_true rfl _ _ _ _).drop.bind fun _ => .pure fun _ _ => trivial
  · refine (keeps_loadName lasting_true k _ s place).bind fun _ => ?_
    exact (keeps_plain lasting_true rfl _ _ _ _).drop.bind fun _ => .pure fun _ _ => trivial

theorem keeps_function (hp : p.Keeping) (power : Nat) (dest : Int) (place : Position) :
    Keeps (fun _ => True) (function p power dest place) fun left c => Loaded c left := by
  refine keeps_functionName.bind fun r => ?_
  refine (keeps_parameterList hp dest r.2).bind fun params => ?_
  refine (keeps_functionSlot r.1).bind fun slot => .assume fun hslot => ?_
  refine (keeps_functionChunk hp r.1 params).bind fun inner => .assume fun hw => ?_
  refine (keeps_makeFunction hw dest params.length place).bind fun _ => ?_
  split
  · exact keeps_temp
  · refine (keeps_bindFunctionName _ hslot dest place).bind fun _ => .pure fun _ _ => ?_
    split <;> trivial

/-! ## Statements -/

theorem keeps_block (hp : p.Keeping) :
    Keeps (fun _ => True) (block p) fun left c => Loaded c left := by
  refine keeps_openBlock.bind fun _ => (keeps_blockBody hp _).bind fun _ => ?_
  exact keeps_closeBlock.bind fun _ => .pure fun _ _ => trivial

theorem keeps_condition (hp : p.Keeping) (dest : Int) :
    Keeps (fun _ => True) (condition p dest) fun _ _ => True :=
  (keeps_expect _).bind fun _ => (keeps_parse hp _ dest).drop.bind fun _ => keeps_expect _

/-- A jump out whose target is not known yet, for the token read last. -/
theorem keeps_leaveIf (hP : Lasting P) (r : Int) : Keeps P (emit .jumpFalse r) fun _ => P :=
  keeps_emit hP fun _ _ hd _ => Chunk.admits_jumpIf (.inl rfl) hd.landing_zero _ _

theorem keeps_leave (hP : Lasting P) : Keeps P (emit .jump 0) fun _ => P :=
  keeps_emit hP fun _ _ hd _ => Chunk.admits_jump hd.landing_zero _

/-- A jump back to a place that was passed. -/
theorem keeps_goBack (hP : Lasting P) (t : Nat) :
    Keeps (fun c => c.Landing t ∧ P c) (emit .jump t) fun _ c => c.Landing t ∧ P c :=
  keeps_emit ((lasting_landing t).and hP) fun _ _ _ h => Chunk.admits_jump h.1 _

theorem keeps_ifStatement (hp : p.Keeping) (dest : Int) :
    Keeps (fun _ => True) (ifStatement p dest) fun left c => Loaded c left := by
  refine (keeps_condition hp dest).bind fun _ => (keeps_leaveIf lasting_true dest).bind
    fun skip => ?_
  refine hp.statement.bind fun _ => keeps_next.bind fun t => ?_
  refine .ite (fun _ => ?_) fun _ => ?_
  · refine (keeps_leave lasting_true).bind fun exit => keeps_here.bind fun t => ?_
    refine Keeps.bind (Q := fun _ _ => True) ((keeps_patch lasting_true skip t).consequence
      (fun _ h => h) fun _ _ _ => trivial) fun _ => hp.statement.bind fun _ => ?_
    refine keeps_here.bind fun t => (keeps_patch lasting_true exit t).bind fun _ => ?_
    exact .pure fun _ _ => trivial
  · refine (keeps_pushBack t).bind fun _ => keeps_here.bind fun t => ?_
    exact (keeps_patch lasting_true skip t).bind fun _ => .pure fun _ _ => trivial

theorem keeps_whileStatement (hp : p.Keeping) (dest : Int) :
    Keeps (fun _ => True) (whileStatement p dest) fun left c => Loaded c left := by
  refine keeps_here.bind fun top => ?_
  have hlast := (lasting_landing top).and lasting_true
  refine ((keeps_condition hp dest).carry hlast).bind fun _ => ?_
  refine (keeps_leaveIf hlast dest).bind fun exit => keeps_openLoop.bind fun _ => ?_
  refine (hp.statement.carry hlast).bind fun _ => ?_
  refine (keeps_goBack lasting_true top).bind fun _ => keeps_here.bind fun behind => ?_
  refine (keeps_patch hlast exit behind).bind fun _ => ?_
  exact (keeps_closeLoop lasting_true behind top).bind fun _ => .pure fun _ _ => trivial

theorem keeps_doStatement (hp : p.Keeping) (dest : Int) :
    Keeps (fun _ => True) (doStatement p dest) fun left c => Loaded c left := by
  refine keeps_here.bind fun top => keeps_openLoop.bind fun _ => ?_
  have hlast := (lasting_landing top).and lasting_true
  refine (hp.statement.carry hlast).bind fun _ => (keeps_expect _).bind fun _ => ?_
  refine keeps_here.bind fun check => ?_
  have hlast' := (lasting_landing check).and hlast
  refine ((keeps_condition hp dest).carry hlast').bind fun _ => ?_
  refine (keeps_emit hlast' fun _ _ _ h => Chunk.admits_jumpIf (.inr rfl) h.2.1 _ _).bind
    fun _ => keeps_here.bind fun behind => ?_
  refine Keeps.bind (Q := fun _ _ => True) ?_ fun _ => keeps_temp
  exact (keeps_closeLoop lasting_true behind check).consequence
    (fun _ h => ⟨h.1, h.2.1, trivial⟩) fun _ _ h => h

theorem keeps_variableName (t : Token) :
    Keeps P (variableName t) fun _ => P := by
  unfold variableName
  split
  · exact .pure fun _ h => h
  · exact keeps_fail _ _

theorem keeps_declareVariable (s : String) (k : Int) (place : Position) :
    Keeps (fun c => c.nameAt? k = some s ∧ True) (declareVariable s k place)
      fun _ c => c.nameAt? k = some s ∧ True := by
  have hlast := (lasting_name k s).and lasting_true
  refine keeps_get.bind fun state => .ite (fun _ => .pure fun _ h => h) fun _ => ?_
  refine (keeps_declare hlast s).bind fun register => .assume fun hr => ?_
  exact (keeps_emitAt_forget hlast fun _ _ h => Chunk.admits_registerLocal h.1 hr _).bind
    fun _ => .pure fun _ h => h

theorem keeps_discard {α : Type} {m : Compile α} (h : Keeps P m fun _ _ => True) :
    Keeps P (discard m) fun _ _ => True :=
  h.bind fun _ => .pure fun _ _ => trivial

theorem keeps_storeVariable (slot : Option Int) (s : String) (k dest : Int) (place : Position) :
    Keeps (fun c => c.nameAt? k = some s ∧ True) (storeVariable slot k dest place)
      fun _ _ => True := by
  unfold storeVariable
  split
  · exact keeps_discard (keeps_plain lasting_true rfl _ _ _ _).drop
  · refine (keeps_loadName lasting_true k _ s place).bind fun _ => ?_
    exact (keeps_plain lasting_true rfl _ _ _ _).drop.bind fun _ => .pure fun _ _ => trivial

theorem keeps_clearVariable (slot : Option Int) (s : String) (k dest : Int) (place : Position) :
    Keeps (fun c => c.nameAt? k = some s ∧ True) (clearVariable slot k dest place)
      fun _ _ => True := by
  unfold clearVariable
  split
  · exact keeps_discard (keeps_plain lasting_true rfl _ _ _ _).drop
  · refine (keeps_loadName lasting_true k _ s place).bind fun _ => ?_
    exact (keeps_plain lasting_true rfl _ _ _ _).drop.bind fun _ => .pure fun _ _ => trivial

theorem keeps_initialise (hp : p.Keeping) (slot : Option Int) (s : String) (k dest : Int)
    (place : Position) (t : Token) :
    Keeps (fun c => c.nameAt? k = some s ∧ True) (initialise p slot k dest place t)
      fun _ _ => True := by
  refine .ite (fun _ => ?_) fun _ => ?_
  · refine ((keeps_parse hp _ dest).carry ((lasting_name k s).and lasting_true)).bind fun _ => ?_
    exact (keeps_storeVariable slot s k dest place).bind fun _ => keeps_next
  · exact (keeps_clearVariable slot s k dest place).bind fun _ => .pure fun _ _ => trivial

theorem keeps_declarations (hp : p.Keeping) (dest : Int) (fuel : Nat) :
    Keeps (fun _ => True) (declarations p dest fuel) fun left c => Loaded c left := by
  induction fuel with
  | zero => exact keeps_exhausted
  | succ fuel ih =>
    refine keeps_next.bind fun t => (keeps_variableName t).bind fun s => ?_
    refine (keeps_name lasting_true s).bind fun k => ?_
    refine (keeps_declareVariable s k t.position).bind fun slot => keeps_next.bind fun u => ?_
    refine (keeps_initialise hp slot s k dest t.position u).bind fun u => ?_
    refine .ite (fun _ => ih) fun _ => .ite (fun _ => ?_) fun _ => keeps_fail _ _
    exact (keeps_pushBack u).bind fun _ => keeps_temp

theorem keeps_forStart (hp : p.Keeping) (dest : Int) :
    Keeps (fun _ => True) (forStart p dest) fun _ _ => True := by
  refine keeps_next.bind fun t => .ite (fun _ => ?_) fun _ =>
    .ite (fun _ => .pure fun _ _ => trivial) fun _ => ?_
  · exact (keeps_declarations hp dest _).drop.bind fun _ => keeps_expect _
  · exact (hp.expression t _ dest).drop.bind fun _ => keeps_expect _

theorem keeps_forTest (hp : p.Keeping) (dest : Int) :
    Keeps (fun _ => True) (forTest p dest) fun _ _ => True := by
  refine keeps_next.bind fun t => .ite (fun _ => .pure fun _ _ => trivial) fun _ => ?_
  refine (hp.expression t _ dest).drop.bind fun _ => (keeps_expect _).bind fun _ => ?_
  exact (keeps_leaveIf lasting_true dest).bind fun _ => .pure fun _ _ => trivial

theorem keeps_forStep (hp : p.Keeping) (dest : Int) :
    Keeps (fun _ => True) (forStep p dest) fun _ _ => True := by
  refine keeps_next.bind fun t => .ite (fun _ => .pure fun _ _ => trivial) fun _ => ?_
  exact (hp.expression t _ dest).drop.bind fun _ => keeps_expect _

theorem keeps_patchExit (hP : Lasting P) (exit : Option Nat) (t : Nat) :
    Keeps (fun c => c.Landing t ∧ P c) (patchExit exit t) fun _ c => c.Landing t ∧ P c := by
  unfold patchExit
  split
  · exact keeps_patch hP _ t
  · exact .pure fun _ h => h

theorem keeps_forStatement (hp : p.Keeping) (dest : Int) :
    Keeps (fun _ => True) (forStatement p dest) fun left c => Loaded c left := by
  refine (keeps_expect _).bind fun _ => keeps_openBlock.bind fun _ => ?_
  refine (keeps_forStart hp dest).bind fun _ => keeps_here.bind fun top => ?_
  have htop := (lasting_landing top).and lasting_true
  refine ((keeps_forTest hp dest).carry htop).bind fun exit => ?_
  refine (keeps_leave htop).bind fun toBody => keeps_here.bind fun step => ?_
  have hstep := (lasting_landing step).and lasting_true
  refine ((keeps_forStep hp dest).carry ((lasting_landing step).and htop)).bind fun _ => ?_
  refine Keeps.bind (Q := fun _ c => c.Landing step ∧ True) ((keeps_goBack hstep top).consequence
    (fun _ h => ⟨h.2.1, h.1, trivial⟩) fun _ _ h => h.2) fun _ => ?_
  refine keeps_here.bind fun t => (keeps_patch hstep toBody t).bind fun _ => ?_
  refine (keeps_openLoop (P := fun c => c.Landing t ∧ c.Landing step ∧ True)).bind fun _ => ?_
  refine Keeps.bind (Q := fun _ c => c.Landing step ∧ True) ((hp.statement.carry
    ((lasting_landing t).and hstep)).consequence (fun _ h => h) fun _ _ h => h.2) fun _ => ?_
  refine (keeps_goBack lasting_true step).bind fun _ => keeps_here.bind fun behind => ?_
  refine (keeps_patchExit hstep exit behind).bind fun _ => ?_
  refine (keeps_closeLoop lasting_true behind step).bind fun _ => ?_
  exact keeps_closeBlock.bind fun _ => .pure fun _ _ => trivial

theorem keeps_returnStatement (hp : p.Keeping) (dest : Int) (place : Position) :
    Keeps (fun _ => True) (returnStatement p dest place) fun left c => Loaded c left := by
  refine keeps_atTerminator.bind fun _ => .ite (fun _ => keeps_plain_temp rfl _ _ _ _) fun _ => ?_
  exact (keeps_parse hp _ dest).bind fun _ => keeps_plain_temp rfl _ _ _ _

theorem keeps_leaveLoop (word : Keyword) (place : Position) :
    Keeps (fun _ => True) (leaveLoop word place) fun left c => Loaded c left := by
  refine keeps_get.bind fun s => ?_
  split
  · exact keeps_fail _ _
  · refine (keeps_openJump place).bind fun index => ?_
    refine Keeps.bind (Q := fun _ _ => True) ?_ fun _ => keeps_temp
    exact keeps_modifyCurrent (fun _ => rfl) fun _ hf => ⟨hf.code, hf.next, hf.locals⟩

/-! ## Productions -/

theorem keeps_leading (hp : p.Keeping) (t : Token) (power : Nat) (dest : Int) :
    Keeps (fun _ => True) (leading p t power dest) fun left c => Loaded c left := by
  have hplain : ∀ op : Op, op.isPlain = true → ∀ a b c : Int, Keeps (fun _ => True)
      (emitAt t.position op a b c >>= fun _ => pure .temp) fun left c => Loaded c left :=
    fun op h a b c => keeps_plain_temp h _ _ _ _
  refine .ite (fun _ => keeps_fail _ _) fun _ => ?_
  split
  · exact keeps_loadConstant (v := .number _) trivial _ _
  · exact keeps_loadConstant (v := .str _) trivial _ _
  · exact keeps_readName _ _ _
  · exact keeps_fail _ _
  · split
    · exact keeps_paren hp dest
    · exact keeps_arrayLiteral hp dest _
    · exact keeps_dictLiteral hp dest _
    · exact keeps_block hp
    all_goals first
      | exact keeps_unary hp rfl _ _ _
      | exact keeps_stepBefore hp rfl _ _
      | exact keeps_fail _ _
  · split
    all_goals first
      | exact hplain _ rfl _ _ _
      | exact keeps_unary hp rfl _ _ _
      | exact keeps_fail _ _
      | exact keeps_function hp power dest _
      | exact keeps_newInstance hp dest _
      | exact keeps_delete hp dest _
      | exact keeps_ifStatement hp dest
      | exact keeps_whileStatement hp dest
      | exact keeps_doStatement hp dest
      | exact keeps_forStatement hp dest
      | exact keeps_declarations hp dest _
      | exact keeps_returnStatement hp dest _
      | exact keeps_leaveLoop _ _

theorem keeps_climb (hp : p.Keeping) (power : Nat) (dest : Int) (fuel : Nat) (left : Operand) :
    Keeps (Loaded · left) (climb p power dest fuel left) fun left c => Loaded c left := by
  induction fuel generalizing left with
  | zero => exact keeps_exhausted
  | succ fuel ih =>
    refine keeps_next.bind fun t => .ite (fun _ => ?_) fun _ => ?_
    · exact (keeps_pushBack t).bind fun _ => .pure fun _ h => h
    · exact (keeps_trailing hp t left dest).bind fun left => ih left

theorem keeps_expression (hp : p.Keeping) (first : Token) (power : Nat) (dest : Int) :
    Keeps (fun _ => True) (expression p first power dest) fun left c => Loaded c left :=
  (keeps_leading hp first power dest).bind fun left =>
    .ite (fun _ => .pure fun _ h => h) fun _ => keeps_climb hp power dest _ left

theorem keeps_statement (hp : p.Keeping) : Keeps (fun _ => True) (statement p) fun _ _ => True := by
  refine keeps_next.bind fun t => .ite (fun _ => .pure fun _ _ => trivial) fun _ =>
    .ite (fun _ => keeps_pushBack t) fun _ => ?_
  refine (hp.expression t _ _).drop.bind fun left => .ite (fun _ => .pure fun _ _ => trivial)
    fun _ => keeps_next.bind fun t => ?_
  exact .ite (fun _ => .pure fun _ _ => trivial) fun _ => .ite (fun _ => keeps_pushBack t)
    fun _ => keeps_fail _ _

/-- The whole grammar keeps code sound, however much fuel it has. -/
theorem keeping_productions (fuel : Nat) : (productions fuel).Keeping := by
  induction fuel with
  | zero => exact ⟨fun _ _ _ => keeps_exhausted, keeps_exhausted⟩
  | succ fuel ih =>
    refine ⟨fun first power dest => ?_, ?_⟩
    · exact keeps_expression ih first power dest
    · exact keeps_statement ih

theorem keeps_scriptBody (hp : p.Keeping) (fuel : Nat) :
    Keeps (fun _ => True) (scriptBody p fuel) fun _ _ => True := by
  induction fuel with
  | zero => exact keeps_exhausted
  | succ fuel ih =>
    refine keeps_next.bind fun t => .ite (fun _ => .pure fun _ _ => trivial) fun _ =>
      .ite (fun _ => keeps_fail _ _) fun _ => ?_
    exact (keeps_pushBack t).bind fun _ => hp.statement.bind fun _ => ih

/-- A script is well formed at every depth. -/
theorem keeps_script (hp : p.Keeping) :
    Keeps (fun _ => True) (script p) fun c _ => ∀ d, c.Contains d → d.WellFormed := by
  refine (keeps_scriptBody hp _).bind fun _ => (keeps_finish _).bind fun _ => ?_
  exact .of_ok fun s hs h => ⟨_, _, rfl, hs, rfl, .refl _, h⟩

end Compile

theorem FunctionState.sound_script : FunctionState.script.Sound :=
  ⟨Chunk.sound_empty none, Int.negSucc_lt_zero 0, by simp [FunctionState.script]⟩

/-- A script that compiles has a chunk that is well formed at every depth. -/
theorem wellFormed_of_compile {source : String} {c d : Chunk} (h : compile source = .ok c)
    (hd : c.Contains d) : d.WellFormed := by
  unfold compile at h
  dsimp only at h
  split at h
  · rename_i root s hrun
    cases h
    have hscript := Compile.keeps_script
      (Compile.keeping_productions (compileFuel (Source.normalize source.toList)))
    exact ((hscript { lexer := _ } FunctionState.sound_script trivial).1 _ _ hrun).2.2.2 d hd
  · cases h

/-- A script that does not compile fails for a reason in its text. -/
theorem ofText_of_compile {source : String} {f : Failure} (h : compile source = .error f) :
    f.OfText := by
  unfold compile at h
  dsimp only at h
  split at h
  · cases h
  · rename_i s hrun
    cases h
    have hscript := Compile.keeps_script
      (Compile.keeping_productions (compileFuel (Source.normalize source.toList)))
    exact (hscript { lexer := _ } FunctionState.sound_script trivial).2 _ _ hrun

end ScriptEngine
