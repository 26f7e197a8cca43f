import ScriptEngine.Proofs.Assignment.Stretch

/-!
# What the code of a target finds

The code of a target ends with a load, in whose place an operator puts what it needs. The code in
front of the load finds what the target refers to, and leaves it in registers: this is
`Target.finds`, by the parts of a target. Each part is a stretch of code that runs once.
-/

namespace ScriptEngine

open Compile

variable {x : Context} {d dest : Int} {b f f' : FunctionState} {left : Operand}
  {s s' : CompileState} {place : Position}

/-! ## Code in a chunk -/

/-- A chunk has the code of a function in the making from an index up to another one, and the names
among its constants. -/
structure Chunk.Shows (F : Chunk) (first stop : Nat) (f : FunctionState) : Prop where
  code : ∀ k, first ≤ k → k < stop → F.code[k]? = f.chunk.code[k]?
  names : ∀ k s, f.chunk.nameAt? k = some s → F.nameAt? k = some s

namespace Chunk.Shows

variable {F : Chunk} {first first' stop stop' : Nat}

theorem narrow (h : F.Shows first stop f) (hfirst : first ≤ first') (hstop : stop' ≤ stop) :
    F.Shows first' stop' f :=
  ⟨fun k hk hlt => h.code k (hfirst.trans hk) (hlt.trans_le hstop), h.names⟩

/-- The code that was there before more was added. -/
theorem before (h : F.Shows first stop f') (hf : f.Confined d f') (hstop : stop' ≤ stop)
    (hsize : stop' ≤ f.size) : F.Shows first stop' f := by
  refine ⟨fun k hk hlt => ?_, fun k s hs => h.names k s ?_⟩
  · rw [h.code k hk (hlt.trans_le hstop), hf.code k (hlt.trans_le hsize)]
  · unfold Chunk.nameAt? Chunk.constantAt? at hs ⊢
    split at hs
    · rename_i t ht
      cases hs
      by_cases hk : 0 ≤ k
      · rw [if_pos hk] at ht ⊢
        rw [hf.grows.constants _ _ ht]
      · rw [if_neg hk] at ht
        cases ht
    · cases hs

/-- The code of a function is the first part of a chunk, which has its names. -/
theorem of_take
    (hcode : F.code.toList.take f.size = f.chunk.code.toList)
    (hnames : ∀ k < f.chunk.constants.size, F.nameAt? k = f.chunk.nameAt? k) :
    F.Shows 0 f.size f := by
  refine ⟨fun k _ hlt => ?_, fun k name hk => ?_⟩
  · rw [← Array.getElem?_toList, ← Array.getElem?_toList, ← hcode, List.getElem?_take_of_lt hlt]
  · obtain ⟨n, rfl, hn⟩ : ∃ n : Nat, k = n ∧ n < f.chunk.constants.size := by
      unfold Chunk.nameAt? Chunk.constantAt? at hk
      by_cases h0 : 0 ≤ k
      · refine ⟨k.toNat, by omega, ?_⟩
        by_contra hn
        rw [if_pos h0, Array.getElem?_eq_none (by omega)] at hk
        cases hk
      · rw [if_neg h0] at hk
        cases hk
    rw [hnames n hn, hk]

/-- Code that was added is a stretch. -/
theorem encloses (h : F.Shows b.size f.size f) (hseg : b.Segment [] f) (hf : b.Confined d f) :
    F.Encloses d b.size f.size := by
  refine ⟨hf.size, fun n hn hlt => ?_⟩
  have hget : f.chunk.code[n]? = some f.chunk.code[n] := Array.getElem?_eq_getElem hlt
  refine ⟨f.chunk.code[n], (h.code n hn hlt).trans hget, hseg.stays n _ hn List.not_mem_nil hget,
    fun r hr => (hf.writes n _ hn hget r hr).imp_right (·.2)⟩

end Chunk.Shows

theorem Made.encloses {n : Nat} {F : Chunk} (h : Made n dest b left f) (hb : b.Settled)
    (hF : F.Shows b.size f.size f) : F.Encloses dest b.size f.size :=
  hF.encloses (h.code hb).1.1.toSegment (h.code hb).2.1

/-! ## Steps of the compiler -/

theorem emitAt_add (place : Position) (op : Op) (x y z : Int) (s : CompileState) :
    emitAt place op x y z s =
      .ok s.current.size { s with current := s.current.add ⟨op, x, y, z, place⟩ } := rfl

/-- The constant of a name. -/
theorem name_eq_ok {t : String} {k : Int} (h : name t s = .ok k s') :
    s'.current.chunk.code = s.current.chunk.code ∧ s'.current.chunk.nameAt? k = some t ∧
      s'.enclosing = s.enclosing := by
  have hcode := (quiet_constant _ s _ _ h).1
  rw [name, constant_apply] at h
  cases h
  exact ⟨hcode, Chunk.addConstant_name _ _, rfl⟩

/-! ## Names -/

namespace Context

variable {P : (Int → Value) → Prop} {pc : Nat}

/-- A name goes into a register. -/
theorem Exact.loadName (hx : x.Proper) {k c : Int} {t : String} (hd : 0 ≤ dest)
    (hi : x.frame.chunk.code[pc]? = some ⟨.loadConst, dest, k, c, place⟩)
    (hk : x.frame.chunk.nameAt? k = some t) :
    x.Exact P pc (x.frame.write dest (.str t)) (pc + 1) fun _ T => T dest = .str t ∧ Kept dest P T := by
  have hhas : x.frame.Has dest := (Frame.has_of_fits (hx.frame.wellFormed.fits pc _ hi)).1 rfl
  have hconst : x.frame.chunk.constantAt? k = some (.value (.str t)) := by
    unfold Chunk.nameAt? at hk
    split at hk <;> cases hk
    assumption
  have hwritten := Exact.written (P := P) hx hd hhas (fun q _ => Frame.Spares.pure (Value.str t))
    fun T _ => x.runs_loadConst hx hi hd hconst
  intro e he hP
  have hme := hwritten e he hP
  rw [keep, pure_bind, Script.bind_apply] at hme
  rcases hwrite : x.frame.write dest (.str t) e with ⟨⟨⟩, e'⟩ | ⟨failure, e'⟩ <;> rw [hwrite] at hme
  · exact hme
  · exact hme

/-- A name of an enclosing function is linked, if it is one. -/
theorem Exact.link (hx : x.Proper) {k : Int} {name : String} {enclosing : List FunctionState}
    {pc' : Nat}
    (hlinked : (enclosing.any fun f => (f.resolve name).isSome) = true → pc' = pc + 1 ∧
      x.frame.chunk.code[pc]? = some ⟨.captureUpvalue, k, 0, 0, place⟩)
    (hfree : (enclosing.any fun f => (f.resolve name).isSome) = false → pc' = pc)
    (hk : x.frame.chunk.nameAt? k = some name) :
    x.Exact P pc (x.link enclosing name) pc' fun _ => Kept d P := by
  unfold Context.link
  split
  · obtain ⟨rfl, hi⟩ := hlinked ‹_›
    refine .unwritten (fun q hq => .calm hq ?_) (fun T _ => x.runs_captureUpvalue hx hi hk) d
    exact .modifyHeap (fun _ _ => Heap.captureUpvalue_graft _ _) fun _ =>
      Heap.keeps_captureUpvalue _ _
  · obtain rfl := hfree (Bool.eq_false_iff.2 ‹_›)
    exact .pure fun T hP => ⟨T, hP, fun _ _ _ => rfl⟩

end Context

/-! ## The loads of operands -/

/-- The registers of an operand that was loaded from somewhere: that of a local, or temporaries. -/
def Operand.InPlace : Operand → Prop
  | .slot register _ => register < 0
  | .member receiver key _ => 0 ≤ receiver ∧ 0 ≤ key
  | _ => False

namespace Context

/-- The parts of a target are in their registers, and the temporaries below are kept. -/
def Located (d : Int) (P : (Int → Value) → Prop) (left : Operand) (place : Position)
    (ref : Reference) (T : Int → Value) : Prop :=
  left.Holds place T ref ∧ Kept d P T

/-- The two parts of a member, one in the destination and one behind. -/
theorem Located.member {P : (Int → Value) → Prop} {T : Int → Value} {load : Nat} {v key : Value}
    (hd : 0 ≤ d) (h : T (d + 1) = key ∧ Kept (d + 1) (fun T => T d = v ∧ Kept d P T) T) :
    Located d P (.member d (d + 1) load) place (.member place v key) T := by
  obtain ⟨rfl, T₁, ⟨rfl, hkept⟩, hsame⟩ := h
  refine ⟨?_, Kept.trans ⟨T₁, hkept, fun q hq hlt => hsame q hq (by omega)⟩ (le_refl d)⟩
  rw [← hsame d hd (by omega)]
  rfl

/-- The code that was added to `b` ends with the load of an operand. In front of the load it finds
what the load reads: the parts are left in their registers, and what waits below the destination is
kept. -/
def Locates (x : Context) (dest : Int) (b : FunctionState) (left : Operand) (f : FunctionState)
    (refer : Script Reference) : Prop :=
  ∃ load place, left.load? = some load ∧ f.size = load + 1 ∧ b.size ≤ load ∧
    f.chunk.code[load]? = some (left.fetch dest place) ∧ left.InPlace ∧
    (x.frame.chunk.Shows b.size load f → ∀ P, (∀ T, P T → T 0 = x.scope) →
      x.Exact P b.size refer load (Located dest P left place))

end Context

/-- The load of a name that is not local: the name is linked if an enclosing function declares it,
and goes into the destination. -/
theorem loadName_eq_ok {name : String} {load : Nat} (hname : s.current.resolve name = none)
    (h : loadName name dest place s = .ok (.member 0 dest load) s') :
    ∃ k, ∃ g : FunctionState, g.chunk.nameAt? k = some name ∧
      ((s.enclosing.any fun f => (f.resolve name).isSome) = true → g.size = s.current.size + 1 ∧
        g.chunk.code[s.current.size]? = some ⟨.captureUpvalue, k, 0, 0, place⟩) ∧
      ((s.enclosing.any fun f => (f.resolve name).isSome) = false → g.size = s.current.size) ∧
      load = g.size + 1 ∧
      s'.current = (g.add ⟨.loadConst, dest, k, 0, place⟩).add ⟨.dot, dest, 0, dest, place⟩ := by
  obtain ⟨s₀, s₁, hget, h⟩ := bind_eq_ok h
  cases hget
  simp only [hname] at h
  obtain ⟨k, s₁, hk, h⟩ := bind_eq_ok h
  obtain ⟨hcode, hk, -⟩ := name_eq_ok hk
  have hsize : s₁.current.size = s.current.size := congrArg Array.size hcode
  have hlast : ∀ {s₂ : CompileState}, (do
        let _ ← emitAt place .loadConst dest k
        let load ← emitAt place .dot dest 0 dest
        return Operand.member 0 dest load) s₂ = .ok (.member 0 dest load) s' →
      load = s₂.current.size + 1 ∧ s'.current =
        (s₂.current.add ⟨.loadConst, dest, k, 0, place⟩).add ⟨.dot, dest, 0, dest, place⟩ := by
    intro s₂ h
    obtain ⟨_, s₃, hload, h⟩ := bind_eq_ok h
    rw [emitAt_add] at hload
    cases hload
    obtain ⟨load', s₄, hdot, h⟩ := bind_eq_ok h
    rw [emitAt_add] at hdot
    cases hdot
    cases h
    exact ⟨FunctionState.size_add .., rfl⟩
  split at h
  · obtain ⟨_, s₂, hcapture, h⟩ := bind_eq_ok h
    rw [emitAt_add] at hcapture
    cases hcapture
    refine ⟨k, s₁.current.add ⟨.captureUpvalue, k, 0, 0, place⟩, hk,
      fun _ => ⟨by rw [FunctionState.size_add, hsize], ?_⟩,
      fun hfree => absurd ‹_› (Bool.eq_false_iff.1 hfree), hlast h⟩
    rw [← hsize]
    exact FunctionState.getElem?_add ..
  · exact ⟨k, s₁.current, hk, fun hlinked => absurd hlinked ‹_›, fun _ => hsize, hlast h⟩

theorem loadName_slot {name : String} {register : Int} {load : Nat}
    (hname : s.current.resolve name = some register)
    (h : loadName name dest place s = .ok (.slot register load) s') :
    load = s.current.size ∧ s'.current = s.current.add ⟨.copy, dest, register, 0, place⟩ := by
  obtain ⟨s₀, s₁, hget, h⟩ := bind_eq_ok h
  cases hget
  simp only [hname] at h
  obtain ⟨load', s₂, hemit, h⟩ := bind_eq_ok h
  rw [emitAt_add] at hemit
  cases hemit
  cases h
  exact ⟨rfl, rfl⟩

theorem dotMember_eq_ok {name : String} {behind : Position} {s₁ : CompileState} {load : Nat}
    (ht : next s = .ok ⟨.ident name, behind⟩ s₁)
    (h : dotMember dest place s = .ok (.member dest (dest + 1) load) s') :
    ∃ k, ∃ g : FunctionState, g.chunk.nameAt? k = some name ∧ g.chunk.code = s.current.chunk.code ∧
      load = g.size + 1 ∧ s'.current =
        (g.add ⟨.loadConst, dest + 1, k, 0, place⟩).add ⟨.dot, dest, dest, dest + 1, place⟩ := by
  obtain ⟨t, s₂, hnext, h⟩ := bind_eq_ok h
  obtain ⟨rfl, rfl⟩ := EStateM.Result.ok.inj (ht.symm.trans hnext)
  have hsame : s₁.current = s.current := next_current hnext
  obtain ⟨k, s₂, hk, h⟩ := bind_eq_ok h
  obtain ⟨hcode, hk, -⟩ := name_eq_ok hk
  obtain ⟨_, s₃, hload, h⟩ := bind_eq_ok h
  rw [emitAt_add] at hload
  cases hload
  obtain ⟨load', s₄, hdot, h⟩ := bind_eq_ok h
  rw [emitAt_add] at hdot
  cases hdot
  cases h
  exact ⟨k, s₂.current, hk, hcode.trans (congrArg (·.chunk.code) hsame), FunctionState.size_add ..,
    rfl⟩

theorem indexMember_eq_ok {p : Productions} {load : Nat}
    (h : indexMember p dest place s = .ok (.member dest (dest + 1) load) s') :
    ∃ key, ∃ s₁ : CompileState, parse p Power.expression (dest + 1) s = .ok key s₁ ∧
      load = s₁.current.size ∧
      s'.current = s₁.current.add ⟨.dot, dest, dest, dest + 1, place⟩ := by
  obtain ⟨key, s₁, hkey, h⟩ := bind_eq_ok h
  obtain ⟨_, s₂, hexpect, h⟩ := bind_eq_ok h
  have hsame : s₂.current = s₁.current := expect_current hexpect
  obtain ⟨load', s₃, hdot, h⟩ := bind_eq_ok h
  rw [emitAt_add] at hdot
  cases hdot
  cases h
  exact ⟨key, s₁, hkey, congrArg FunctionState.size hsame, by dsimp only; rw [hsame]⟩

/-! ## What is found in front of a load -/

section

variable (hx : x.Proper) (hd : 2 ≤ dest)

theorem locates_local {name : String} {register : Int} {load : Nat} (hs : s.current.Settled)
    (hname : s.current.resolve name = some register)
    (h : loadName name dest place s = .ok (.slot register load) s') :
    x.Locates dest s.current (.slot register load) s'.current (return .slot place register) := by
  obtain ⟨rfl, hs'⟩ := loadName_slot hname h
  rw [hs']
  exact ⟨_, place, rfl, FunctionState.size_add .., le_refl _, FunctionState.getElem?_add ..,
    (hs.resolve hname).2, fun _ _ _ => .pure fun _ hP => ⟨rfl, .self hP⟩⟩

include hx hd

theorem locates_name {name : String} {load : Nat} (hname : s.current.resolve name = none)
    (h : loadName name dest place s = .ok (.member 0 dest load) s') :
    x.Locates dest s.current (.member 0 dest load) s'.current (do
      x.link s.enclosing name
      x.frame.write dest (.str name)
      return .member place x.scope (.str name)) := by
  obtain ⟨k, g, hg, hlinked, hfree, rfl, hs'⟩ := loadName_eq_ok hname h
  have hle : s.current.size ≤ g.size := by
    rcases hbool : s.enclosing.any fun f => (f.resolve name).isSome with _ | _
    · exact (hfree hbool).ge
    · rw [(hlinked hbool).1]
      exact Nat.le_succ _
  rw [hs']
  refine ⟨_, place, rfl, by rw [FunctionState.size_add, FunctionState.size_add], by omega,
    (FunctionState.size_add g _) ▸ FunctionState.getElem?_add .., ⟨le_refl _, by omega⟩,
    fun hF P hP => ?_⟩
  have hcapture : (s.enclosing.any fun f => (f.resolve name).isSome) = true →
      g.size = s.current.size + 1 ∧
        x.frame.chunk.code[s.current.size]? = some ⟨.captureUpvalue, k, 0, 0, place⟩ := fun hbool => by
    obtain ⟨hnext, hcapture⟩ := hlinked hbool
    rw [hF.code _ (le_refl _) (by omega),
      FunctionState.getElem?_add_of_lt _ _ (by rw [FunctionState.size_add]; omega),
      FunctionState.getElem?_add_of_lt _ _ (by omega)]
    exact ⟨hnext, hcapture⟩
  have hload : x.frame.chunk.code[g.size]? = some ⟨.loadConst, dest, k, 0, place⟩ := by
    rw [hF.code _ hle (by omega),
      FunctionState.getElem?_add_of_lt _ _ (by rw [FunctionState.size_add]; omega)]
    exact FunctionState.getElem?_add ..
  have hk : x.frame.chunk.nameAt? k = some name := hF.names k name hg
  refine (Context.Exact.link (d := dest) hx hcapture hfree hk).bind fun _ => ?_
  refine (Context.Exact.loadName hx (by omega) hload hk).bind fun _ => .pure fun T => ?_
  rintro ⟨hkey, hkept⟩
  have hall := hkept.trans (le_refl dest)
  refine ⟨?_, hall⟩
  obtain ⟨T₁, hP₁, hsame⟩ := hall
  rw [← hkey, ← hP T₁ hP₁, ← hsame 0 (le_refl _) (by omega)]
  rfl

theorem locates_dot {n : Nat} {name : String} {behind : Position} {s₁ : CompileState} {load : Nat}
    (hb : b.Settled) (he : Made n dest b left s.current)
    (ht : next s = .ok ⟨.ident name, behind⟩ s₁)
    (h : dotMember dest place s = .ok (.member dest (dest + 1) load) s') :
    x.Locates dest b (.member dest (dest + 1) load) s'.current (do
      let v ← x.evaluate b.size s.current.size dest
      x.frame.write (dest + 1) (.str name)
      return .member place v (.str name)) := by
  obtain ⟨-, hmade, -⟩ := he.code hb
  have hadded := (confines_dotMember (le_refl dest) place s (.refl hmade.settled dest) _ _ h).1
  obtain ⟨k, g, hg, hcode, rfl, hs'⟩ := dotMember_eq_ok ht h
  have hsize : g.size = s.current.size := congrArg Array.size hcode
  have hle := hmade.size
  rw [hs'] at hadded ⊢
  refine ⟨_, place, rfl, by rw [FunctionState.size_add, FunctionState.size_add], by omega,
    (FunctionState.size_add g _) ▸ FunctionState.getElem?_add .., ⟨by omega, by omega⟩,
    fun hF P hP => ?_⟩
  have hload : x.frame.chunk.code[g.size]? = some ⟨.loadConst, dest + 1, k, 0, place⟩ := by
    rw [hF.code _ (by omega) (by omega),
      FunctionState.getElem?_add_of_lt _ _ (by rw [FunctionState.size_add]; omega)]
    exact FunctionState.getElem?_add ..
  have hfirst := hF.before hadded (show s.current.size ≤ _ by omega) (le_refl _)
  refine (Context.Exact.evaluate hx (he.encloses hb hfirst) dest).bind fun v => ?_
  rw [← hsize]
  exact (Context.Exact.loadName hx (by omega) hload (hF.names k name hg)).bind fun _ =>
    .pure fun T => Context.Located.member (by omega)

theorem locates_index {n m : Nat} {load : Nat} (hb : b.Settled) (he : Made n dest b left s.current)
    (h : indexMember (productions m) dest place s = .ok (.member dest (dest + 1) load) s') :
    x.Locates dest b (.member dest (dest + 1) load) s'.current (do
      let v ← x.evaluate b.size s.current.size dest
      let key ← x.evaluate s.current.size load (dest + 1)
      return .member place v key) := by
  obtain ⟨-, hmade, -⟩ := he.code hb
  obtain ⟨key, s₁, hkey, rfl, hs'⟩ := indexMember_eq_ok h
  have hgrown := (yields_parse (adding_productions m) (le_refl Power.expression) s (.refl _) _ _ hkey).1
  have hadded := (confines_parse (confining_productions m) (le_refl Power.expression)
    (show 2 ≤ dest + 1 by omega) (le_refl _) s (.refl hmade.settled _) _ _ hkey).1
  rw [hs']
  refine ⟨_, place, rfl, FunctionState.size_add .., hmade.size.trans hadded.size,
    FunctionState.getElem?_add .., ⟨by omega, by omega⟩, fun hF P hP => ?_⟩
  have hwhole : x.frame.chunk.Shows b.size s₁.current.size s₁.current :=
    ⟨fun k hk hlt => (hF.code k hk hlt).trans (FunctionState.getElem?_add_of_lt _ _ hlt), hF.names⟩
  have hfirst := hwhole.before hadded hadded.size (le_refl _)
  have hsecond := (hwhole.narrow hmade.size (le_refl _)).encloses hgrown.toSegment hadded
  refine (Context.Exact.evaluate hx (he.encloses hb hfirst) dest).bind fun v => ?_
  exact (Context.Exact.evaluate hx hsecond (dest + 1)).bind fun key => .pure fun T =>
    Context.Located.member (by omega)

end

/-! ## Targets -/

namespace Target

variable {refer : Script Reference}

theorem load (h : Target x dest b left f refer) : ∃ load, left.load? = some load := by
  induction h with
  | comma _ _ ih => exact ih
  | _ => exact ⟨_, rfl⟩

/-- The code of a target writes registers from the destination on. -/
theorem confined (h : Target x dest b left f refer) (hb : b.Settled) (hd : 2 ≤ dest) :
    b.Confined dest f := by
  induction h with
  | @slot s s' name place register load hname h =>
    exact (confines_loadName name (le_refl dest) place s (.refl hb dest) _ _ h).1
  | @name s s' name place load hname h =>
    exact (confines_loadName name (le_refl dest) place s (.refl hb dest) _ _ h).1
  | dot he ht h => exact (confines_dotMember (le_refl dest) _ _ (he.code hb).2.1 _ _ h).1
  | index he h =>
    exact (confines_indexMember (confining_productions _) hd (le_refl dest) _ _ (he.code hb).2.1 _ _ h).1
  | comma hfirst h ih =>
    have hf := (hfirst.code hb).2.1
    exact hf.trans (ih hf.settled) (le_refl dest)

/-- The code of a target in front of its load finds what the target refers to. -/
theorem locates (h : Target x dest b left f refer) (hx : x.Proper) (hb : b.Settled) (hd : 2 ≤ dest) :
    x.Locates dest b left f refer := by
  induction h with
  | slot hname h => exact locates_local hb hname h
  | name hname h => exact locates_name hx hd hname h
  | dot he ht h => exact locates_dot hx hd hb he ht h
  | index he h => exact locates_index hx hd hb he h
  | @comma n b f f' first left refer hfirst h ih =>
    obtain ⟨-, hmade, -⟩ := hfirst.code hb
    obtain ⟨load, place, hload, hsize, hle, hfetch, hplace, hfinds⟩ := ih hmade.settled
    refine ⟨load, place, hload, hsize, hmade.size.trans hle, hfetch, hplace, fun hF P hP => ?_⟩
    have hbefore := hF.before (h.confined hmade.settled hd) hle (le_refl _)
    refine (Context.Exact.pass hx (hfirst.encloses hb hbefore)).bind fun _ => ?_
    refine (hfinds (hF.narrow hmade.size (le_refl _)) _ ?_).imp fun ref T ⟨hholds, hkept⟩ =>
      ⟨hholds, hkept.trans (le_refl dest)⟩
    rintro T ⟨T₁, hP₁, hsame⟩
    rw [hsame 0 (le_refl _) (by omega), hP T₁ hP₁]

end Target

end ScriptEngine
