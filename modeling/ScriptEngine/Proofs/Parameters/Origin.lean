import ScriptEngine.Proofs.Parameters.Literal

/-!
# Where functions come from

The code of a function literal is not changed any more when the literal has been compiled, however
deep inside of other constructs it stands. What is changed later are the loads of operands and the
jumps that wait for their targets, and none of them is inside of a literal that is complete.

`f.Sourced H` says this of the function `f` in the making: each instruction that makes a function is
that of a literal (`CompiledLiteral`), the code holds the whole literal, and the indices `H`, like the
jumps of open loops, are outside of it. Code at those indices may change, and a new instruction may be
added to them, as it lies behind all literals (`SourcedBut.transfer`). There is one rule for each
construct, under the assumption that those inside of it obey theirs (`Productions.Sourcing`).

Main statement (`function_has_literal`): every function that a compiled script makes, at any depth, is
that of a literal whose code the chunk holds.
-/

namespace ScriptEngine

/-- A function literal that was compiled, from one state to another. -/
structure CompiledLiteral where
  literal : FunctionLiteral
  fuel : Nat
  power : Nat
  dest : Int
  place : Position
  left : Operand
  start : CompileState
  stop : CompileState
  /-- Where the code of the defaults ends. -/
  close : Nat
  settled : start.current.Settled
  above : 2 ≤ dest
  compiled : Compile.function (Compile.productions fuel) power dest place start = .ok left stop
  made : literal.Made fuel dest start stop
  laid : literal.LaidIn fuel dest start.current.size close stop.current.chunk

/-- The instruction at an index makes the function of a literal, which a chunk holds. -/
structure CompiledLiteral.LiesIn (r : CompiledLiteral) (c : Chunk) (n : Nat) : Prop where
  holds : c.Holds r.stop.current.chunk r.start.current.size
  index : n = r.close + 1

/-- The functions that a chunk makes, at any depth, are those of literals. -/
def Chunk.Sourced (c : Chunk) : Prop :=
  ∀ d, c.Contains d → ∀ (n : Nat) i, d.code[n]? = some i → i.op = .makeFunc →
    ∃ r : CompiledLiteral, r.LiesIn d n

/-- The functions that are made of the constants of a chunk are those of literals. -/
def Chunk.SourcedInside (c : Chunk) : Prop :=
  ∀ (n : Nat) inner, c.constants[n]? = some (.template inner) → inner.Sourced

namespace FunctionState

/-- The jumps that wait in open loops. -/
def waiting (f : FunctionState) : List Nat :=
  f.loops.flatMap fun labels => labels.breaks ++ labels.continues

/-- What `Sourced` says, but for the instructions at the indices `E`; see the head of the module. -/
structure SourcedBut (E H : List Nat) (f : FunctionState) : Prop where
  settled : f.Settled
  inside : ∀ n ∈ H ++ f.waiting, n < f.size
  makes : ∀ n ∉ E, ∀ i, f.chunk.code[n]? = some i → i.op = .makeFunc →
    ∃ r : CompiledLiteral, r.LiesIn f.chunk n ∧ r.stop.current.size ≤ f.size ∧
      ∀ m ∈ H ++ f.waiting, m < r.start.current.size ∨ r.stop.current.size ≤ m
  constants : f.chunk.SourcedInside

/-- The functions that the code makes are those of literals; see the head of the module. -/
abbrev Sourced : List Nat → FunctionState → Prop :=
  SourcedBut []

variable {E E' H H' : List Nat} {f g : FunctionState}

/-- The code at open indices may change and code may be added, as long as no function is made. -/
theorem SourcedBut.transfer (h : f.SourcedBut E H) (hsettled : g.Settled) (hsize : f.size ≤ g.size)
    (hopen : ∀ m ∈ H' ++ g.waiting, m < g.size ∧ (m < f.size → m ∈ H ++ f.waiting))
    (hcode : ∀ m, m < f.size → m ∉ H ++ f.waiting → g.chunk.code[m]? = f.chunk.code[m]?)
    (hmakes : ∀ n ∉ E', ∀ i, g.chunk.code[n]? = some i → i.op = .makeFunc →
      n ∉ E ∧ ∃ j, f.chunk.code[n]? = some j ∧ j.op = .makeFunc)
    (hgrows : ∀ (n : Nat) k, f.chunk.constants[n]? = some k → g.chunk.constants[n]? = some k)
    (hconstants : g.chunk.SourcedInside) : g.SourcedBut E' H' := by
  refine ⟨hsettled, fun m hm => (hopen m hm).1, fun n hn i hi hop => ?_, hconstants⟩
  obtain ⟨hold, j, hj, hop⟩ := hmakes n hn i hi hop
  obtain ⟨r, hr, hstop, hout⟩ := h.makes n hold j hj hop
  refine ⟨r, ⟨⟨fun m hm hlt => ?_, fun m k hk => hgrows m k (hr.holds.constants m k hk)⟩, hr.index⟩,
    hstop.trans hsize, fun m hm => ?_⟩
  · have hlt : m < r.stop.current.size := hlt
    rw [hcode m (hlt.trans_le hstop) fun hm' => by have := hout m hm'; omega, hr.holds.code m hm hlt]
  · by_cases hlt : m < f.size
    · exact hout m ((hopen m hm).2 hlt)
    · exact .inr (hstop.trans (not_lt.1 hlt))

/-- Fewer indices are open. -/
theorem SourcedBut.forget (h : f.SourcedBut E H) (hsub : H' ⊆ H) : f.SourcedBut E H' := by
  have hopen : ∀ m ∈ H' ++ f.waiting, m ∈ H ++ f.waiting := fun m hm =>
    List.mem_append.2 ((List.mem_append.1 hm).imp_left (hsub ·))
  exact ⟨h.settled, fun m hm => h.inside m (hopen m hm), fun n hn i hi hop =>
    (h.makes n hn i hi hop).imp fun _ hr => ⟨hr.1, hr.2.1, fun m hm => hr.2.2 m (hopen m hm)⟩,
    h.constants⟩

/-- Neither the code nor the loops change. -/
theorem SourcedBut.congr (h : f.SourcedBut E H) (hsettled : g.Settled)
    (hcode : g.chunk.code = f.chunk.code) (hloops : g.loops = f.loops)
    (hgrows : ∀ (n : Nat) k, f.chunk.constants[n]? = some k → g.chunk.constants[n]? = some k)
    (hconstants : g.chunk.SourcedInside) : g.SourcedBut E H := by
  have hsize : g.size = f.size := congrArg Array.size hcode
  have hwaiting : g.waiting = f.waiting := by rw [waiting, hloops, waiting]
  refine h.transfer hsettled hsize.ge (fun m hm => ?_) (fun m _ _ => by rw [hcode])
    (fun n hn i hi hop => ⟨hn, i, hcode ▸ hi, hop⟩) hgrows hconstants
  rw [hwaiting] at hm
  exact ⟨hsize ▸ h.inside m hm, fun _ => hm⟩

/-- An instruction is appended, and its index is open. -/
theorem SourcedBut.add (h : f.SourcedBut E H) {i : Instruction}
    (hE : ∀ n ∈ E, n ∈ E') (hop : i.op = .makeFunc → f.size ∈ E') :
    (f.add i).SourcedBut E' (f.size :: H) := by
  refine h.transfer ⟨h.settled.next, h.settled.names, h.settled.tamed⟩ (by simp) (fun m hm => ?_)
    (fun m hm _ => getElem?_add_of_lt f i hm) (fun n hn j hj hjop => ?_) (fun _ _ hk => hk) h.constants
  · rw [size_add]
    rcases List.mem_cons.1 hm with rfl | hm
    · exact ⟨Nat.lt_succ_self _, fun hlt => absurd hlt (lt_irrefl _)⟩
    · exact ⟨(h.inside m hm).trans (Nat.lt_succ_self _), fun _ => hm⟩
  · refine ⟨fun hmem => hn (hE n hmem), ?_⟩
    rw [code_add, Array.getElem?_push] at hj
    split at hj
    · rename_i heq
      cases hj
      exact absurd (heq ▸ hop hjop) hn
    · exact ⟨j, hj, hjop⟩

/-- The instruction at an open index is changed to one that makes no function. -/
theorem SourcedBut.modify (h : f.SourcedBut E H) {m : Nat} (hm : m ∈ H ++ f.waiting)
    {F : Instruction → Instruction} {G : Chunk → Chunk}
    (hcode : (G f.chunk).code = f.chunk.code.modify m F)
    (hconst : (G f.chunk).constants = f.chunk.constants)
    (hF : ∀ i, (F i).op = .makeFunc → i.op = .makeFunc) :
    SourcedBut E H { f with chunk := G f.chunk } := by
  have hget : ∀ n, (G f.chunk).code[n]? =
      if m = n then f.chunk.code[n]?.map F else f.chunk.code[n]? := fun n => by
    rw [hcode, Array.getElem?_modify]
  have hsize : (G f.chunk).code.size = f.size := by
    rw [hcode]
    exact Array.size_modify ..
  have hsettled : ({ f with chunk := G f.chunk } : FunctionState).Settled :=
    ⟨h.settled.next, h.settled.names, fun n inner hn => h.settled.tamed n inner (hconst ▸ hn)⟩
  refine h.transfer hsettled hsize.ge (fun n hn => ⟨(h.inside n hn).trans_eq hsize.symm, fun _ => hn⟩)
    (fun n _ hn => ?_) (fun n hn j hj hjop => ⟨hn, ?_⟩) (fun n k hk => hconst ▸ hk)
    fun n inner hn => h.constants n inner (hconst ▸ hn)
  · exact (hget n).trans (if_neg fun heq : m = n => hn (heq ▸ hm))
  · rw [hget] at hj
    split at hj
    · obtain ⟨i, hi, rfl⟩ := Option.map_eq_some_iff.1 hj
      exact ⟨i, hi, hF i hjop⟩
    · exact ⟨j, hj, hjop⟩

theorem op_aim (i : Instruction) (target : Nat) : (i.aim target).op = i.op := by
  obtain ⟨op, a, b, c, place⟩ := i
  cases op <;> rfl

/-- Jumps at open indices get their targets. -/
theorem SourcedBut.aim {ns : List Nat} (h : f.SourcedBut E H) (hns : ∀ n ∈ ns, n ∈ H ++ f.waiting)
    (target : Nat) : (f.aim ns target).SourcedBut E H := by
  induction ns generalizing f with
  | nil => exact h
  | cons m ns ih =>
    rw [aim_cons]
    refine ih ?_ fun n hn => hns n (List.mem_cons_of_mem m hn)
    exact h.modify (F := (·.aim target)) (G := (·.patchJump m target)) (hns m List.mem_cons_self)
      rfl rfl fun i hi => (op_aim i target) ▸ hi

theorem SourcedBut.enter (h : f.SourcedBut E H) : f.enter.SourcedBut E H :=
  ⟨⟨h.settled.next, h.settled.names, h.settled.tamed⟩, h.inside, h.makes, h.constants⟩

/-- The jumps of a loop get their targets, and do not wait any more. -/
theorem SourcedBut.close (h : f.SourcedBut E H) (exit resume : Nat) :
    (f.close exit resume).SourcedBut E H := by
  unfold FunctionState.close
  rcases hf : f.loops with _ | ⟨labels, loops⟩
  · exact h
  · have hwaiting : f.waiting = labels.breaks ++ labels.continues ++
        loops.flatMap fun labels => labels.breaks ++ labels.continues := by
      rw [waiting, hf, List.flatMap_cons]
    have haimed : ((f.aim labels.breaks exit).aim labels.continues resume).SourcedBut E H := by
      refine (h.aim (fun n hn => ?_) exit).aim (fun n hn => ?_) resume
      · simp [hwaiting, hn]
      · rw [waiting, loops_aim, ← waiting]
        simp [hwaiting, hn]
    have hopen : ∀ n ∈ H ++ loops.flatMap (fun labels => labels.breaks ++ labels.continues),
        n ∈ H ++ ((f.aim labels.breaks exit).aim labels.continues resume).waiting := fun n hn => by
      rw [waiting, loops_aim, loops_aim, ← waiting, hwaiting]
      exact List.mem_append.2 ((List.mem_append.1 hn).imp_right (List.mem_append_right _))
    exact ⟨⟨haimed.settled.next, haimed.settled.names, haimed.settled.tamed⟩,
      fun n hn => haimed.inside n (hopen n hn), fun n hn i hi hop =>
        (haimed.makes n hn i hi hop).imp fun _ hr => ⟨hr.1, hr.2.1, fun m hm => hr.2.2 m (hopen m hm)⟩,
      haimed.constants⟩

/-- A name is declared. -/
theorem SourcedBut.declare (h : f.SourcedBut E H) (name : String) :
    (f.declare name).1.SourcedBut E H := by
  have hsame : (f.declare name).1.chunk.code = f.chunk.code ∧
      (f.declare name).1.chunk.constants = f.chunk.constants ∧
      (f.declare name).1.loops = f.loops := by
    unfold FunctionState.declare
    dsimp only
    split <;> exact ⟨rfl, rfl, rfl⟩
  exact h.congr ((Confined.refl h.settled 0).declare name).1.settled hsame.1 hsame.2.2
    (fun _ _ hk => hsame.2.1 ▸ hk) fun n inner hn => h.constants n inner (hsame.2.1 ▸ hn)

/-- The innermost loop gets a jump whose index is open. -/
theorem SourcedBut.relabel {n : Nat} (h : f.SourcedBut E (n :: H)) {labels labels' : LoopLabels}
    {loops : List LoopLabels} (hf : f.loops = labels :: loops)
    (hnew : ∀ m ∈ labels'.breaks ++ labels'.continues,
      m = n ∨ m ∈ labels.breaks ++ labels.continues) :
    SourcedBut E H { f with loops := labels' :: loops } := by
  have hopen : ∀ m ∈ H ++ waiting { f with loops := labels' :: loops }, m ∈ n :: H ++ f.waiting := by
    intro m hm
    rw [waiting, hf, List.flatMap_cons]
    rw [waiting, List.flatMap_cons] at hm
    simp only [List.mem_append, List.mem_cons] at hm hnew ⊢
    have := hnew m
    tauto
  exact h.transfer ⟨h.settled.next, h.settled.names, h.settled.tamed⟩ (le_refl _)
    (fun m hm => ⟨h.inside m (hopen m hm), fun _ => hopen m hm⟩) (fun _ _ _ => rfl)
    (fun n hn i hi hop => ⟨hn, i, hi, hop⟩) (fun _ _ hk => hk) h.constants

/-- The code of a function is complete. -/
theorem SourcedBut.sourced (h : f.Sourced H) : f.chunk.Sourced := by
  intro d hd n i hi hop
  cases hd with
  | refl =>
    obtain ⟨r, hr, -⟩ := h.makes n List.not_mem_nil i hi hop
    exact ⟨r, hr⟩
  | step hinner hd => exact h.constants _ _ hinner d hd n i hi hop

theorem sourced_empty (name : Option String) (params : Nat) (blocks : List Block)
    (hblocks : ∀ block ∈ blocks, block = []) :
    Sourced [] { chunk := { Chunk.empty name with paramCount := params }, blocks } := by
  refine ⟨⟨Int.negSucc_lt_zero 0, fun block hb x hx => ?_, fun n inner hn => ?_⟩, nofun,
    fun n _ i hi => ?_, fun n inner hn => ?_⟩
  · rw [hblocks block hb] at hx
    cases hx
  all_goals simp [Chunk.empty] at *

theorem sourced_script : FunctionState.script.Sourced [] :=
  sourced_empty none 0 [] nofun

theorem sourced_function (named : Option String) (params : List String) :
    (FunctionState.function named params).Sourced [] := by
  have hfold : ∀ (params : List String) (f : FunctionState), f.Sourced [] →
      (params.foldl (fun f param => (f.declare param).1) f).Sourced [] := by
    intro params
    induction params with
    | nil => exact fun _ h => h
    | cons t params ih => exact fun f h => ih _ (h.declare t)
  exact hfold params _ (sourced_empty named params.length [[]] (by simp))

end FunctionState

/-- What an expression leaves: code in which the load of its operand is open. -/
def Compile.Opens (H : List Nat) (left : Operand) (f : FunctionState) : Prop :=
  f.Sourced (left.load?.toList ++ H)

/-- The entry points of a grammar make functions of literals only. -/
structure Productions.Sourcing (p : Productions) : Prop where
  confining : p.Confining
  within : ∃ fuel, p = Compile.productions fuel
  expression : ∀ (first : Token) {power : Nat} {dest : Int}, Power.Fits power dest → ∀ H,
    Compile.Yields (FunctionState.Sourced H) (p.expression first power dest) (Compile.Opens H)
  statement : ∀ H, Compile.Yields (FunctionState.Sourced H) p.statement
    fun _ => FunctionState.Sourced H

namespace Compile

open FunctionState

variable {E H H' : List Nat} {dest : Int} {p : Productions}

/-! ## Steps -/

/-- Indices that do not matter any more are forgotten. -/
theorem Yields.forget {α : Type} {m : Compile α} {Q : α → FunctionState → Prop}
    (h : Yields (Sourced H') m Q) (hsub : H' ⊆ H) : Yields (Sourced H) m Q :=
  h.consequence (fun _ hf => hf.forget hsub) fun _ _ h => h

/-- An instruction that makes no function: its index is open. -/
theorem sources_hole {place : Position} {op : Op} {x y z : Int} (hop : op ≠ .makeFunc) :
    Yields (SourcedBut E H) (emitAt place op x y z) fun n => SourcedBut E (n :: H) :=
  .of_ok fun s hs => ⟨_, _, emitAt_apply place op x y z s, hs.add (fun _ h => h) fun h => absurd h hop⟩

theorem sources_emitAt {place : Position} {op : Op} {x y z : Int} (hop : op ≠ .makeFunc) :
    Yields (SourcedBut E H) (emitAt place op x y z) fun _ => SourcedBut E H :=
  (sources_hole hop).consequence (fun _ h => h) fun n _ h =>
    h.forget (List.subset_cons_self n H)

theorem sources_emitHole {op : Op} {x y z : Int} (hop : op ≠ .makeFunc) :
    Yields (Sourced H) (emit op x y z) fun n => Sourced (n :: H) :=
  yields_get.bind fun _ => sources_hole hop

theorem sources_emit {op : Op} {x y z : Int} (hop : op ≠ .makeFunc) :
    Yields (Sourced H) (emit op x y z) fun _ => Sourced H :=
  yields_get.bind fun _ => sources_emitAt hop

/-- An instruction that ends a construct. -/
theorem sources_last {place : Position} {op : Op} {x y z : Int} (hop : op ≠ .makeFunc) :
    Yields (Sourced H) (emitAt place op x y z >>= fun _ => pure .temp) (Opens H) :=
  (sources_emitAt hop).bind fun _ => .pure fun _ h => h

/-- A constant that is no function, or a function that makes functions of literals only. -/
theorem sources_constant {k : Constant}
    (hk : ∀ inner, k = .template inner → inner.Restrained ∧ inner.Sourced) :
    Yields (SourcedBut E H) (constant k) fun _ => SourcedBut E H := by
  refine .of_ok fun s hs => ⟨_, _, constant_apply k s, ?_⟩
  have hconfined := (Confined.refl hs.settled 0).addConstant fun inner h => (hk inner h).1
  refine hs.congr hconfined.settled ?_ rfl hconfined.grows.constants fun n inner hn => ?_
  · dsimp only
    unfold Chunk.addConstant
    split <;> rfl
  · dsimp only at hn
    unfold Chunk.addConstant at hn
    split at hn
    · exact hs.constants n inner hn
    · rw [Array.getElem?_push] at hn
      split at hn
      · exact (hk inner (Option.some.inj hn)).2
      · exact hs.constants n inner hn

theorem sources_name (s : String) :
    Yields (SourcedBut E H) (name s) fun _ => SourcedBut E H :=
  sources_constant nofun

theorem sources_declare (s : String) :
    Yields (SourcedBut E H) (declare s) fun _ => SourcedBut E H :=
  .of_ok fun _ hs => ⟨_, _, rfl, hs.declare s⟩

/-- The instruction at an open index is changed for the last time, to one that makes no function. -/
theorem sources_modify {m : Nat} {F : Instruction → Instruction} {G : Chunk → Chunk}
    (hcode : ∀ c, (G c).code = c.code.modify m F) (hconst : ∀ c, (G c).constants = c.constants)
    (hF : ∀ i, (F i).op = .makeFunc → i.op = .makeFunc) :
    Yields (Sourced (m :: H)) (modifyChunk G) fun _ => Sourced H := by
  refine .of_ok fun s hs => ⟨(), _, rfl, ?_⟩
  have hopen : m ∈ m :: H ++ s.current.waiting := List.mem_cons_self
  exact (hs.modify hopen (hcode _) (hconst _) hF).forget (List.subset_cons_self m H)

theorem sources_erase (load : Nat) :
    Yields (Sourced (load :: H)) (erase load) fun _ => Sourced H :=
  sources_modify (F := ({ · with op := .nop })) (G := (·.modifyAt load ({ · with op := .nop })))
    (fun _ => rfl) (fun _ => rfl) fun _ h => by cases h

theorem sources_retarget (load : Nat) (dest receiver key : Int) :
    Yields (Sourced (load :: H)) (retarget load dest receiver key) fun t f =>
      f.Sourced H ∧ dest < t := by
  have habove := above_gt dest receiver key
  refine (sources_modify (F := ({ · with a := above dest receiver key }))
    (G := fun c => (c.modifyAt load ({ · with a := above dest receiver key })).reserve
      (above dest receiver key + 1)) (fun _ => rfl) (fun _ => rfl) fun _ h => h).bind fun _ => ?_
  exact .pure fun _ h => ⟨h, habove⟩

theorem sources_patch {n : Nat} (hn : n ∈ H) (target : Nat) :
    Yields (Sourced H) (patch n target) fun _ => Sourced H := by
  refine .of_ok fun s hs => ⟨(), _, rfl, ?_⟩
  have hopen : ∀ m ∈ [n], m ∈ H ++ s.current.waiting := fun m hm =>
    List.mem_append_left _ (List.mem_singleton.1 hm ▸ hn)
  exact hs.aim hopen target

theorem sources_here : Yields (Sourced H) here fun _ => Sourced H :=
  .of_ok fun s hs => ⟨_, s, rfl, hs⟩

/-- Two steps that point a jump to the end of the code. -/
theorem sources_landing {β : Type} {n : Nat} {k : Unit → Compile β}
    {R : β → FunctionState → Prop} (hk : Yields (Sourced H) (k ()) R) :
    Yields (Sourced (n :: H)) (here >>= fun target => patch n target >>= k) R :=
  sources_here.bind fun target => (sources_patch List.mem_cons_self target).bind fun _ =>
    hk.forget (List.subset_cons_self n H)

/-- The same while another jump is open, which was appended later. -/
theorem sources_landing_behind {β : Type} {n m : Nat} {k : Unit → Compile β}
    {R : β → FunctionState → Prop} (hk : Yields (Sourced (m :: H)) (k ()) R) :
    Yields (Sourced (m :: n :: H)) (here >>= fun target => patch n target >>= k) R :=
  sources_here.bind fun target =>
    (sources_patch (List.mem_cons_of_mem m List.mem_cons_self) target).bind fun _ =>
      hk.forget (List.cons_subset_cons m (List.subset_cons_self n H))

theorem sources_expression (hp : p.Sourcing) {first : Token} {power : Nat}
    (hpower : Power.expression ≤ power) (hdest : 2 ≤ dest) :
    Yields (Sourced H) (p.expression first power dest) (Opens H) :=
  hp.expression first (.inl ⟨hpower, hdest⟩) H

theorem sources_parse (hp : p.Sourcing) {power : Nat} (hpower : Power.expression ≤ power)
    (hdest : 2 ≤ dest) : Yields (Sourced H) (parse p power dest) (Opens H) :=
  yields_next.bind fun _ => sources_expression hp hpower hdest

/-- The load of an operand is forgotten. -/
theorem Yields.closed {m : Compile Operand} {P : FunctionState → Prop} (h : Yields P m (Opens H)) :
    Yields P m fun _ => Sourced H :=
  h.consequence (fun _ h => h) fun _ _ h => h.forget (List.subset_append_right _ H)

theorem sources_operand (hp : p.Sourcing) {power : Nat} (hpower : Power.expression ≤ power)
    (hdest : 2 ≤ dest) : Yields (Sourced H) (parse p power dest) fun _ => Sourced H :=
  (sources_parse hp hpower hdest).closed

/-! ## Names and unary operators -/

theorem sources_loadConstant (v : Value) (dest : Int) (place : Position) :
    Yields (Sourced H) (loadConstant v dest place) (Opens H) :=
  (sources_constant (k := .value v) nofun).bind fun _ => sources_last (by decide)

/-- An instruction that loads an operand. -/
theorem sources_load {place : Position} {op : Op} {x y z : Int} (left : Nat → Operand)
    (hop : op ≠ .makeFunc) (hleft : ∀ n, (left n).load? = some n) :
    Yields (Sourced H) (emitAt place op x y z >>= fun n => pure (left n)) (Opens H) :=
  (sources_hole hop).bind fun n => .pure fun _ h => by rwa [Opens, hleft]

theorem sources_loadName (s : String) (dest : Int) (place : Position) :
    Yields (Sourced H) (loadName s dest place) (Opens H) := by
  refine yields_get.bind fun state => ?_
  have hload : ∀ k, Yields (Sourced H) (do
      let _ ← emitAt place .loadConst dest k
      let load ← emitAt place .dot dest 0 dest
      return .member 0 dest load) (Opens H) := fun k =>
    (sources_emitAt (by decide)).bind fun _ => sources_load (.member 0 dest) (by decide) fun _ => rfl
  split
  · exact sources_load (.slot _) (by decide) fun _ => rfl
  · refine (sources_name s).bind fun k => ?_
    split
    · exact (sources_emitAt (by decide)).bind fun _ => hload k
    · exact hload k

theorem ne_makeFunc_of_isPlain {op : Op} (h : op.isPlain = true) : op ≠ .makeFunc := by
  rintro rfl
  cases h

theorem sources_unary (hp : p.Sourcing) {op : Op} (hop : op ≠ .makeFunc) {power : Nat}
    (hpower : Power.expression ≤ power) (hdest : 2 ≤ dest) (place : Position) :
    Yields (Sourced H) (unary p op power dest place) (Opens H) :=
  (sources_operand hp hpower hdest).bind fun _ => sources_last hop

theorem sources_paren (hp : p.Sourcing) (hdest : 2 ≤ dest) :
    Yields (Sourced H) (paren p dest) (Opens H) := by
  refine yields_next.bind fun first => ?_
  have hinner : Yields (Sourced H) (do
      let left ← p.expression first Power.expression dest
      expect (.mark .rParen)
      return left) (Opens H) :=
    (sources_expression hp (le_refl _) hdest).bind fun left =>
      (yields_expect _).bind fun _ => .pure fun _ h => h
  dsimp only
  split
  · rename_i op hop
    refine yields_next.bind fun second => .ite (fun _ => ?_) fun _ =>
      (yields_pushBack _).bind fun _ => hinner
    exact sources_unary hp (ne_makeFunc_of_isPlain (castOp?_isPlain hop)) (by decide) hdest _
  · exact hinner

/-! ## Lists -/

theorem sources_argumentsFrom (hp : p.Sourcing) (fuel : Nat) {register : Int}
    (hdest : 2 ≤ register) :
    Yields (Sourced H) (argumentsFrom p register fuel) fun _ => Sourced H := by
  induction fuel generalizing register with
  | zero => exact yields_exhausted
  | succ fuel ih =>
    refine (sources_operand hp (by decide) hdest).bind fun _ => yields_next.bind fun t => ?_
    exact .ite (fun _ => ih (by omega)) fun _ => .ite (fun _ => .pure fun _ h => h)
      fun _ => yields_fail _ _

theorem sources_arguments (hp : p.Sourcing) {first : Int} (hdest : 2 ≤ first) :
    Yields (Sourced H) (arguments p first) fun _ => Sourced H :=
  yields_next.bind fun t => .ite (fun _ => .pure fun _ h => h) fun _ =>
    (yields_pushBack t).bind fun _ => sources_argumentsFrom hp _ hdest

theorem sources_arrayItems (hp : p.Sourcing) (fuel : Nat) {register : Int} (hdest : 2 ≤ register) :
    Yields (Sourced H) (arrayItems p register fuel) fun _ => Sourced H := by
  induction fuel generalizing register with
  | zero => exact yields_exhausted
  | succ fuel ih =>
    refine yields_next.bind fun t => .ite (fun _ => .pure fun _ h => h) fun _ =>
      .ite (fun _ => ?_) fun _ => ?_
    · exact (sources_emit (by decide)).bind fun _ => ih (by omega)
    · refine (sources_expression hp (by decide) hdest).closed.bind fun _ =>
        yields_next.bind fun t => ?_
      exact .ite (fun _ => ih (by omega)) fun _ => .ite (fun _ => .pure fun _ h => h)
        fun _ => yields_fail _ _

theorem sources_arrayLiteral (hp : p.Sourcing) (hdest : 2 ≤ dest) (place : Position) :
    Yields (Sourced H) (arrayLiteral p dest place) (Opens H) :=
  (sources_arrayItems hp _ (by omega)).bind fun _ => sources_last (by decide)

theorem sources_dictKey (hp : p.Sourcing) (t : Token) {register : Int} (hdest : 2 ≤ register) :
    Yields (Sourced H) (dictKey p t register) fun _ => Sourced H := by
  have hspelled : Yields (Sourced H) (do
      let _ ← p.expression t Power.comma register
      let sep ← next
      if sep.kind = .mark .arrow || sep.kind = .mark .colon then return ()
      else fail (.expected (.sign .arrow) sep.kind) sep.position) fun _ => Sourced H :=
    (sources_expression hp (by decide) hdest).closed.bind fun _ =>
      yields_next.bind fun _ => .ite (fun _ => .pure fun _ h => h) fun _ => yields_fail _ _
  unfold dictKey
  dsimp only
  split
  · refine yields_next.bind fun behind => .ite (fun _ => ?_) fun _ =>
      (yields_pushBack behind).bind fun _ => hspelled
    exact (sources_name _).bind fun _ => (sources_emit (by decide)).bind fun _ => .pure fun _ h => h
  · exact hspelled

theorem sources_dictEntries (hp : p.Sourcing) (fuel : Nat) {register : Int} (hdest : 2 ≤ register) :
    Yields (Sourced H) (dictEntries p register fuel) fun _ => Sourced H := by
  induction fuel generalizing register with
  | zero => exact yields_exhausted
  | succ fuel ih =>
    refine yields_next.bind fun t => .ite (fun _ => .pure fun _ h => h) fun _ => ?_
    refine (sources_dictKey hp t hdest).bind fun _ => ?_
    refine (sources_operand hp (by decide) (by omega)).bind fun _ => yields_next.bind fun t => ?_
    exact .ite (fun _ => ih (by omega)) fun _ => .ite (fun _ => .pure fun _ h => h)
      fun _ => yields_fail _ _

theorem sources_dictLiteral (hp : p.Sourcing) (hdest : 2 ≤ dest) (place : Position) :
    Yields (Sourced H) (dictLiteral p dest place) (Opens H) :=
  (sources_dictEntries hp _ (by omega)).bind fun _ => sources_last (by decide)

/-! ## Targets -/

/-- The last two instructions of a write to a member. -/
theorem sources_set {place : Position} {receiver key t x : Int} :
    Yields (Sourced H) (do
      let _ ← emitAt place .dotSet receiver key t
      let _ ← emitAt place .copy dest x
      return Operand.temp) (Opens H) :=
  (sources_emitAt (by decide)).bind fun _ => sources_last (by decide)

theorem sources_assign (hp : p.Sourcing) (left : Operand) {op? : Option Op}
    (hop : ∀ op ∈ op?, op ≠ .makeFunc) (hdest : 2 ≤ dest) (place : Position) :
    Yields (Opens H left) (assign p left op? dest place) (Opens H) := by
  have hpower : Power.expression ≤ Power.assignment - 1 := by decide
  have habove := above_gt dest
  unfold assign
  split
  · rename_i load
    refine (sources_erase load).bind fun _ => (sources_operand hp hpower hdest).bind fun _ => ?_
    exact sources_last (by decide)
  · refine Yields.forget ?_ (List.subset_append_right _ H)
    refine (sources_operand hp hpower (by omega)).bind fun _ => ?_
    exact (sources_emitAt (hop _ rfl)).bind fun _ => sources_last (by decide)
  · rename_i receiver key load
    have := habove receiver key
    refine (sources_erase load).bind fun _ => ?_
    exact (sources_operand hp hpower (by omega)).bind fun _ => sources_set
  · rename_i load _
    refine (sources_retarget load dest _ _).bind fun t => .known fun ht => ?_
    refine (sources_operand hp hpower (by omega)).bind fun _ => ?_
    exact (sources_emitAt (hop _ rfl)).bind fun _ => sources_set
  · exact yields_fail _ _

theorem sources_stepBefore (hp : p.Sourcing) {op : Op} (hop : op ≠ .makeFunc) (hdest : 2 ≤ dest)
    (place : Position) : Yields (Sourced H) (stepBefore p op dest place) (Opens H) := by
  refine (sources_parse hp (by decide) hdest).bind fun left => ?_
  split
  · rename_i load
    exact (sources_erase load).bind fun _ => sources_last hop
  · rename_i load
    refine (sources_retarget load dest _ _).bind fun t => .known fun _ => ?_
    exact (sources_emitAt hop).bind fun _ => sources_set
  · exact yields_fail _ _

theorem sources_stepAfter (left : Operand) {op : Op} (hop : op ≠ .makeFunc) (place : Position) :
    Yields (Opens H left) (stepAfter left op dest place) (Opens H) := by
  unfold stepAfter
  split
  · rename_i load
    exact (sources_erase load).bind fun _ => sources_last hop
  · rename_i load
    refine (sources_retarget load dest _ _).bind fun t => .known fun _ => ?_
    exact (sources_emitAt hop).bind fun _ => sources_set
  · exact yields_fail _ _

theorem sources_delete (hp : p.Sourcing) (hdest : 2 ≤ dest) (place : Position) :
    Yields (Sourced H) (delete p dest place) (Opens H) := by
  refine (sources_parse hp (by decide) hdest).bind fun left => ?_
  split
  · rename_i load
    exact (sources_erase load).bind fun _ => (sources_emitAt (by decide)).bind fun _ =>
      sources_last (by decide)
  · rename_i receiver key load
    refine Yields.bind (Q := fun _ => Sourced H) ?_ fun _ => sources_last (by decide)
    exact sources_modify (F := fun _ => ⟨.delete, receiver, key, 0, place⟩)
      (G := (·.modifyAt load fun _ => ⟨.delete, receiver, key, 0, place⟩))
      (fun _ => rfl) (fun _ => rfl) fun _ h => by cases h
  · exact yields_fail _ _

/-! ## Choices -/

theorem sources_ternary (hp : p.Sourcing) (hdest : 2 ≤ dest) (place : Position) :
    Yields (Sourced H) (ternary p dest place) (Opens H) := by
  refine (sources_hole (by decide)).bind fun skip => ?_
  refine (sources_operand hp (by decide) hdest).bind fun _ => (yields_expect _).bind fun _ => ?_
  refine (sources_hole (by decide)).bind fun exit => ?_
  refine sources_landing_behind ?_
  refine (sources_operand hp (by decide) hdest).bind fun _ => ?_
  exact sources_landing (.pure fun _ h => h)

theorem sources_shortCircuit (hp : p.Sourcing) {leave op decided : Op} (hleave : leave ≠ .makeFunc)
    (hop : op ≠ .makeFunc) (hdecided : decided ≠ .makeFunc) {power : Nat}
    (hpower : Power.expression ≤ power) (hdest : 2 ≤ dest) (place : Position) :
    Yields (Sourced H) (shortCircuit p leave op decided power dest place) (Opens H) := by
  refine (sources_hole hleave).bind fun skip => ?_
  refine (sources_operand hp hpower (by omega)).bind fun _ => (sources_emitAt hop).bind fun _ => ?_
  refine (sources_hole (by decide)).bind fun exit => ?_
  refine sources_landing_behind ?_
  refine (sources_emitAt hdecided).bind fun _ => ?_
  exact sources_landing (.pure fun _ h => h)

/-! ## Continuations -/

theorem sources_dotMember (dest : Int) (place : Position) :
    Yields (Sourced H) (dotMember dest place) (Opens H) := by
  refine yields_next.bind fun t => ?_
  split
  · refine (sources_name _).bind fun _ => (sources_emitAt (by decide)).bind fun _ => ?_
    exact sources_load (.member dest (dest + 1)) (by decide) fun _ => rfl
  · exact yields_fail _ _

theorem sources_indexMember (hp : p.Sourcing) (hdest : 2 ≤ dest) (place : Position) :
    Yields (Sourced H) (indexMember p dest place) (Opens H) :=
  (sources_operand hp (by decide) (by omega)).bind fun _ => (yields_expect _).bind fun _ =>
    sources_load (.member dest (dest + 1)) (by decide) fun _ => rfl

theorem sources_call (hp : p.Sourcing) (hdest : 2 ≤ dest) :
    Yields (Sourced H) (do
      let behind ← arguments p (dest + 1)
      let _ ← emit .call dest (dest + 1) behind
      return Operand.temp) (Opens H) :=
  (sources_arguments hp (by omega)).bind fun _ => (sources_emit (by decide)).bind fun _ =>
    .pure fun _ h => h

theorem sources_trailing (hp : p.Sourcing) (t : Token) (left : Operand) (hdest : 2 ≤ dest) :
    Yields (Opens H left) (trailing p t left dest) (Opens H) := by
  have hforget : ∀ {m : Compile Operand}, Yields (Sourced H) m (Opens H) →
      Yields (Opens H left) m (Opens H) :=
    fun h => h.forget (List.subset_append_right _ H)
  unfold trailing
  dsimp only
  split
  · rename_i hop
    obtain ⟨-, hpower⟩ := goesOn_of_binaryOp? hop
    exact hforget ((sources_operand hp hpower (by omega)).bind fun _ =>
      sources_last (ne_makeFunc_of_isPlain (binaryOp?_isPlain hop)))
  · rename_i op _ hop
    refine sources_assign hp left (fun op' h => ?_) hdest _
    cases h
    exact ne_makeFunc_of_isPlain (compoundOp?_isPlain hop)
  · split
    · exact sources_assign hp left (show ∀ op ∈ (none : Option Op), _ from nofun) hdest _
    · exact hforget (sources_parse hp (by decide) hdest)
    · exact hforget (sources_ternary hp hdest _)
    · rename_i hkind
      exact hforget (sources_shortCircuit hp (by decide) (by decide) (by decide)
        (by rw [hkind]; decide) hdest _)
    · rename_i hkind
      exact hforget (sources_shortCircuit hp (by decide) (by decide) (by decide)
        (by rw [hkind]; decide) hdest _)
    · exact sources_stepAfter left (by decide) _
    · exact sources_stepAfter left (by decide) _
    · exact hforget (sources_dotMember dest _)
    · exact hforget (sources_indexMember hp hdest _)
    · exact hforget (sources_call hp hdest)
    · exact yields_fail _ _

/-! ## Instances -/

theorem sources_classPath (hp : p.Sourcing) (hdest : 2 ≤ dest) (fuel : Nat) (fallback : Int) :
    Yields (Sourced H) (classPath p fallback dest fuel) fun _ => Sourced H := by
  induction fuel generalizing fallback with
  | zero => exact yields_exhausted
  | succ fuel ih =>
    refine yields_next.bind fun t => .ite (fun _ => ?_) fun _ =>
      (yields_pushBack t).bind fun _ => .pure fun _ h => h
    exact (sources_trailing hp t .temp hdest).closed.bind fun _ => ih _

theorem sources_newInstance (hp : p.Sourcing) (hdest : 2 ≤ dest) (place : Position) :
    Yields (Sourced H) (newInstance p dest place) (Opens H) := by
  refine yields_next.bind fun t => ?_
  have hrest : ∀ fallback : Int, Yields (Sourced H) (do
      let _ ← p.expression t Power.primary dest
      let fallback ← classPath p fallback dest p.budget
      let _ ← emitAt place .newObject dest dest fallback
      let t ← next
      if t.kind = .mark .lParen then
        let behind ← arguments p (dest + 1)
        let _ ← emitAt place .call dest (dest + 1) behind
      else
        pushBack t
        let _ ← emitAt place .call dest (dest + 1) (dest + 1)
      return .temp) (Opens H) := by
    intro fallback
    refine (sources_expression hp (by decide) hdest).closed.bind fun _ => ?_
    refine (sources_classPath hp hdest _ fallback).bind fun _ =>
      (sources_emitAt (by decide)).bind fun _ => yields_next.bind fun t => ?_
    dsimp only
    split
    · exact (sources_arguments hp (by omega)).bind fun _ => sources_last (by decide)
    · exact (yields_pushBack t).bind fun _ => sources_last (by decide)
  split
  · exact (sources_name _).bind fun k => hrest k
  · exact hrest (-1)

/-! ## Functions -/

theorem sources_parameterDefault (hp : p.Sourcing) {register : Int} (hdest : 2 ≤ register)
    (place : Position) (behind : Token) (defaults : Bool) :
    Yields (Sourced H) (parameterDefault p register place behind defaults) fun _ => Sourced H := by
  refine .ite (fun _ => ?_) fun _ => .ite (fun _ => yields_fail _ _) fun _ => ?_
  · exact (sources_operand hp (by decide) hdest).bind fun _ => yields_next.bind fun _ =>
      .pure fun _ h => h
  · exact (sources_emitAt (by decide)).bind fun _ => .pure fun _ h => h

theorem sources_parameters (hp : p.Sourcing) (hdest : 2 ≤ dest) (fuel : Nat) (t : Token)
    (params : List String) (defaults : Bool) :
    Yields (Sourced H) (parameters p dest fuel t params defaults) fun _ => Sourced H := by
  induction fuel generalizing t params defaults with
  | zero => exact yields_exhausted
  | succ fuel ih =>
    refine (yields_parameterName t params).bind fun param => yields_next.bind fun behind => ?_
    refine (sources_parameterDefault hp (by omega) _ behind defaults).bind fun r => ?_
    exact .ite (fun _ => yields_next.bind fun t => ih t _ _) fun _ =>
      .ite (fun _ => .pure fun _ h => h) fun _ => yields_fail _ _

theorem sources_parameterList (hp : p.Sourcing) (hdest : 2 ≤ dest) (t : Token) :
    Yields (Sourced H) (parameterList p dest t) fun _ => Sourced H :=
  .ite (fun _ => yields_next.bind fun t => .ite (fun _ => .pure fun _ h => h)
    fun _ => sources_parameters hp hdest _ t [] false) fun _ => yields_fail _ _

theorem sources_functionSlot (named : Option String) :
    Yields (Sourced H) (functionSlot named) fun _ => Sourced H := by
  refine yields_get.bind fun state => ?_
  split
  · refine .ite (fun _ => .pure fun _ h => h) fun _ => ?_
    rw [map_eq_pure_bind]
    exact (sources_declare _).bind fun _ => .pure fun _ h => h
  · exact .pure fun _ h => h

theorem sources_blockBody (hp : p.Sourcing) (fuel : Nat) :
    Yields (Sourced H) (blockBody p fuel) fun _ => Sourced H := by
  induction fuel with
  | zero => exact yields_exhausted
  | succ fuel ih =>
    refine yields_next.bind fun t => .ite (fun _ => .pure fun _ h => h) fun _ =>
      .ite (fun _ => yields_fail _ _) fun _ => ?_
    exact (yields_pushBack t).bind fun _ => (hp.statement H).bind fun _ => ih

theorem sources_registerParameters (register : Int) (params : List String) :
    Yields (Sourced H) (registerParameters register params) fun _ => Sourced H := by
  induction params generalizing register with
  | nil => exact .pure fun _ h => h
  | cons t params ih =>
    exact (sources_name t).bind fun _ => (sources_emit (by decide)).bind fun _ => ih _

theorem sources_functionBody (hp : p.Sourcing) (params : List String) :
    Yields (Sourced H) (functionBody p params) fun _ => Sourced H :=
  (sources_registerParameters (-1) params).bind fun _ => (yields_expect _).bind fun _ =>
    (sources_blockBody hp _).bind fun _ => (sources_emit (by decide)).bind fun _ =>
      .pure fun _ h => h

/-- The functions that an inner function makes are those of literals. -/
theorem sources_functionChunk (hp : p.Sourcing) (named : Option String) (params : List String)
    {P : FunctionState → Prop} :
    Yields P (functionChunk p named params) fun inner f =>
      P f ∧ inner.Restrained ∧ inner.Sourced := by
  intro s hs inner s' h
  obtain ⟨hP, hrestrained⟩ := confines_functionChunk hp.confining named params s hs inner s' h
  obtain ⟨_, s₁, h₁, h⟩ := bind_eq_ok h
  cases h₁
  obtain ⟨_, s₂, h₂, h₃⟩ := bind_eq_ok h
  obtain ⟨-, henclosing, -⟩ :=
    (keeps_functionBody hp.confining.keeping params _ (sound_function named params) trivial).1 _ _ h₂
  have hsourced := sources_functionBody hp params _ (sourced_function named params) _ _ h₂
  rw [leaveFunction_cons henclosing] at h₃
  cases h₃
  exact ⟨hP, hrestrained, hsourced.sourced⟩

/-- An instruction at a known index, which may make a function if the index is left out. -/
theorem sources_emitAt_size {place : Position} {op : Op} {x y z : Int} {m : Nat} (hE : E ⊆ E')
    (hop : op = .makeFunc → m ∈ E') :
    Yields (fun f => f.SourcedBut E H ∧ f.size = m) (emitAt place op x y z)
      fun _ f => f.SourcedBut E' H ∧ f.size = m + 1 := by
  refine .of_ok fun s hs => ⟨_, _, emitAt_apply place op x y z s, ?_, ?_⟩
  · exact (hs.1.add hE fun h => hs.2 ▸ hop h).forget (List.subset_cons_self _ H)
  · exact (size_add s.current _).trans (congrArg (· + 1) hs.2)

theorem sources_makeFunction {chunk : Chunk} (hchunk : chunk.Restrained ∧ chunk.Sourced) (dest : Int)
    (count : Nat) (place : Position) {m : Nat} :
    Yields (fun f => f.Sourced H ∧ f.size = m) (makeFunction chunk dest count place)
      fun _ => SourcedBut [m + 1] H := by
  have hconstant : Yields (fun f => f.Sourced H ∧ f.size = m) (constant (.template chunk))
      fun _ f => f.Sourced H ∧ f.size = m := fun s hs k s' h =>
    ⟨sources_constant (fun _ h => by cases h; exact hchunk) s hs.1 k s' h,
      (congrArg Array.size (quiet_constant _ s k s' h).1).trans hs.2⟩
  refine hconstant.bind fun k => ?_
  refine (sources_emitAt_size (fun _ h => h) fun h => absurd h (by decide)).bind fun _ => ?_
  refine (sources_emitAt_size (List.nil_subset _) fun _ => List.mem_singleton_self _).bind fun _ => ?_
  refine (sources_emitAt_size (fun _ h => h) fun h => absurd h (by decide)).bind fun _ => ?_
  exact .pure fun _ h => h.1

theorem sources_bindFunctionName (s : String) (slot : Option Int) (dest : Int) (place : Position) :
    Yields (SourcedBut E H) (bindFunctionName s slot dest place) fun _ => SourcedBut E H := by
  refine (sources_name s).bind fun _ => ?_
  split <;> exact (sources_emitAt (by decide)).bind fun _ => (sources_emitAt (by decide)).bind fun _ =>
    .pure fun _ h => h

/-- The code of a literal behind its parameters: one function is made, by its second instruction but
one. -/
theorem sources_functionRest (hp : p.Sourcing) (named : Option String) (params : List String)
    (power : Nat) (dest : Int) (place : Position) {m : Nat} :
    Yields (fun f => f.Sourced H ∧ f.size = m) (do
        let slot ← functionSlot named
        let chunk ← functionChunk p named params
        makeFunction chunk dest params.length place
        match named with
        | none => return .temp
        | some s =>
          bindFunctionName s slot dest place
          return if power = Power.statement then .done else .temp : Compile Operand)
      fun left f => f.SourcedBut [m + 1] H ∧ left.load? = none := by
  have hslot : Yields (fun f => f.Sourced H ∧ f.size = m) (functionSlot named)
      fun _ f => f.Sourced H ∧ f.size = m := fun s hs slot s' h =>
    ⟨sources_functionSlot named s hs.1 slot s' h,
      (congrArg Array.size (quiet_functionSlot named h)).trans hs.2⟩
  refine hslot.bind fun slot => (sources_functionChunk hp named params).bind fun chunk =>
    .known fun hchunk => (sources_makeFunction hchunk dest _ place).bind fun _ => ?_
  split
  · exact .pure fun _ h => ⟨h, rfl⟩
  · refine (sources_bindFunctionName _ slot dest place).bind fun _ => .pure fun _ h => ⟨h, ?_⟩
    split <;> rfl

/-- A literal makes its own function and those of its defaults. -/
theorem sources_function (hp : p.Sourcing) (power : Nat) (hdest : 2 ≤ dest) (place : Position) :
    Yields (Sourced H) (function p power dest place) (Opens H) := by
  obtain ⟨fuel, rfl⟩ := hp.within
  intro s hs left s' h
  obtain ⟨l, ⟨named, t⟩, s₁, s₃, hnamed, hlist, hmade, hlaid⟩ :=
    makes_function_behind hs.settled hdest h
  have h₁ := yields_functionName s hs _ s₁ hnamed
  have h₃ := sources_parameterList hp hdest t s₁ h₁ l.names s₃ hlist
  have hloops := (yields_function (adding_productions fuel) power dest place s
    (Segment.refl s.current) left s' h).1.loops
  have hrest := h
  unfold function at hrest
  rw [bind_apply, hnamed] at hrest
  dsimp only at hrest
  rw [bind_apply, hlist] at hrest
  obtain ⟨hbut, hleft⟩ := sources_functionRest hp named l.names power dest place s₃ ⟨h₃, rfl⟩ left s'
    hrest
  rw [Opens, hleft]
  refine ⟨hbut.settled, hbut.inside, fun n _ i hi hop => ?_, hbut.constants⟩
  by_cases hn : n = s₃.current.size + 1
  · refine ⟨⟨l, fuel, power, dest, place, left, s, s', _, hs.settled, hdest, h, hmade, hlaid⟩,
      ⟨⟨fun _ _ _ => rfl, fun _ _ hk => hk⟩, hn⟩, le_refl _, fun m hm => .inl (hs.inside m ?_)⟩
    rwa [waiting, ← hloops]
  · exact hbut.makes n (by simpa using hn) i hi hop

/-! ## Statements -/

theorem sources_openBlock :
    Yields (Sourced H) (modifyCurrent (·.openBlock)) fun _ => Sourced H :=
  .of_ok fun _ hs => ⟨(), _, rfl, hs.congr ((Confined.refl hs.settled 0).openBlock).settled rfl rfl
    (fun _ _ hk => hk) hs.constants⟩

theorem sources_closeBlock :
    Yields (Sourced H) (modifyCurrent (·.closeBlock)) fun _ => Sourced H :=
  .of_ok fun _ hs => ⟨(), _, rfl, hs.congr ((Confined.refl hs.settled 0).closeBlock).settled rfl rfl
    (fun _ _ hk => hk) hs.constants⟩

theorem sources_openLoop : Yields (Sourced H) openLoop fun _ => Sourced H :=
  .of_ok fun _ hs => ⟨(), _, rfl, hs.enter⟩

theorem sources_closeLoop (exit resume : Nat) :
    Yields (Sourced H) (closeLoop exit resume) fun _ => Sourced H :=
  .of_ok fun s hs => ⟨(), { s with current := s.current.close exit resume }, by
    unfold closeLoop FunctionState.close modifyCurrent
    rfl, hs.close exit resume⟩

theorem sources_block (hp : p.Sourcing) : Yields (Sourced H) (block p) (Opens H) :=
  sources_openBlock.bind fun _ => (sources_blockBody hp _).bind fun _ =>
    sources_closeBlock.bind fun _ => .pure fun _ h => h

theorem sources_condition (hp : p.Sourcing) (hdest : 2 ≤ dest) :
    Yields (Sourced H) (condition p dest) fun _ => Sourced H :=
  (yields_expect _).bind fun _ => (sources_operand hp (le_refl _) hdest).bind fun _ =>
    yields_expect _

theorem sources_ifStatement (hp : p.Sourcing) (hdest : 2 ≤ dest) :
    Yields (Sourced H) (ifStatement p dest) (Opens H) := by
  refine (sources_condition hp hdest).bind fun _ => (sources_emitHole (by decide)).bind fun skip => ?_
  refine (hp.statement (skip :: H)).bind fun _ => yields_next.bind fun t =>
    .ite (fun _ => ?_) fun _ => ?_
  · refine (sources_emitHole (by decide)).bind fun exit => ?_
    refine sources_landing_behind ?_
    exact (hp.statement (exit :: H)).bind fun _ =>
      sources_landing (.pure fun _ h => h)
  · exact (yields_pushBack t).bind fun _ =>
      sources_landing (.pure fun _ h => h)

theorem sources_whileStatement (hp : p.Sourcing) (hdest : 2 ≤ dest) :
    Yields (Sourced H) (whileStatement p dest) (Opens H) := by
  refine sources_here.bind fun top => (sources_condition hp hdest).bind fun _ => ?_
  refine (sources_emitHole (by decide)).bind fun exit => sources_openLoop.bind fun _ => ?_
  refine (hp.statement (exit :: H)).bind fun _ => (sources_emit (by decide)).bind fun _ => ?_
  refine sources_here.bind fun behind => (sources_patch List.mem_cons_self _).bind fun _ => ?_
  exact ((sources_closeLoop behind top).forget (List.subset_cons_self exit H)).bind fun _ =>
    .pure fun _ h => h

theorem sources_doStatement (hp : p.Sourcing) (hdest : 2 ≤ dest) :
    Yields (Sourced H) (doStatement p dest) (Opens H) := by
  refine sources_here.bind fun top => sources_openLoop.bind fun _ => (hp.statement H).bind fun _ => ?_
  refine (yields_expect _).bind fun _ => sources_here.bind fun check => ?_
  refine (sources_condition hp hdest).bind fun _ => (sources_emit (by decide)).bind fun _ => ?_
  exact sources_here.bind fun behind => (sources_closeLoop behind check).bind fun _ =>
    .pure fun _ h => h

theorem sources_declareVariable (s : String) (k : Int) (place : Position) :
    Yields (Sourced H) (declareVariable s k place) fun _ => Sourced H :=
  yields_get.bind fun _ => .ite (fun _ => .pure fun _ h => h) fun _ =>
    (sources_declare s).bind fun _ => (sources_emitAt (by decide)).bind fun _ => .pure fun _ h => h

theorem sources_storeVariable (slot : Option Int) (k dest : Int) (place : Position) :
    Yields (Sourced H) (storeVariable slot k dest place) fun _ => Sourced H := by
  cases slot with
  | some register =>
    show Yields _ (emitAt place .copy register dest >>= fun _ => pure ()) _
    exact (sources_emitAt (by decide)).bind fun _ => .pure fun _ h => h
  | none =>
    exact (sources_emitAt (by decide)).bind fun _ => (sources_emitAt (by decide)).bind fun _ =>
      .pure fun _ h => h

theorem sources_clearVariable (slot : Option Int) (k dest : Int) (place : Position) :
    Yields (Sourced H) (clearVariable slot k dest place) fun _ => Sourced H := by
  cases slot with
  | some register =>
    show Yields _ (emitAt place .loadVoid register >>= fun _ => pure ()) _
    exact (sources_emitAt (by decide)).bind fun _ => .pure fun _ h => h
  | none =>
    exact (sources_emitAt (by decide)).bind fun _ => (sources_emitAt (by decide)).bind fun _ =>
      .pure fun _ h => h

theorem sources_initialise (hp : p.Sourcing) (slot : Option Int) (k : Int) (hdest : 2 ≤ dest)
    (place : Position) (t : Token) :
    Yields (Sourced H) (initialise p slot k dest place t) fun _ => Sourced H := by
  refine .ite (fun _ => ?_) fun _ => ?_
  · exact (sources_operand hp (by decide) hdest).bind fun _ =>
      (sources_storeVariable slot k dest place).bind fun _ => yields_next
  · exact (sources_clearVariable slot k dest place).bind fun _ => .pure fun _ h => h

theorem sources_declarations (hp : p.Sourcing) (hdest : 2 ≤ dest) (fuel : Nat) :
    Yields (Sourced H) (declarations p dest fuel) (Opens H) := by
  induction fuel with
  | zero => exact yields_exhausted
  | succ fuel ih =>
    refine yields_next.bind fun t => (yields_variableName t).bind fun s => ?_
    refine (sources_name s).bind fun k => (sources_declareVariable s k _).bind fun slot => ?_
    refine yields_next.bind fun t' => (sources_initialise hp slot k hdest _ t').bind fun t => ?_
    refine .ite (fun _ => ih) fun _ => .ite (fun _ => ?_) fun _ => yields_fail _ _
    exact (yields_pushBack t).bind fun _ => .pure fun _ h => h

theorem sources_forStart (hp : p.Sourcing) (hdest : 2 ≤ dest) :
    Yields (Sourced H) (forStart p dest) fun _ => Sourced H := by
  refine yields_next.bind fun t => .ite (fun _ => ?_) fun _ => .ite (fun _ => .pure fun _ h => h)
    fun _ => ?_
  · exact (sources_declarations hp hdest _).closed.bind fun _ => yields_expect _
  · exact (sources_expression hp (le_refl _) hdest).closed.bind fun _ => yields_expect _

/-- The jump that leaves a `for` loop, if there is one, is open. -/
theorem sources_forTest (hp : p.Sourcing) (hdest : 2 ≤ dest) :
    Yields (Sourced H) (forTest p dest) fun exit => Sourced (exit.toList ++ H) := by
  refine yields_next.bind fun t => .ite (fun _ => .pure fun _ h => h) fun _ => ?_
  refine (sources_expression hp (le_refl _) hdest).closed.bind fun _ =>
    (yields_expect _).bind fun _ => ?_
  rw [map_eq_pure_bind]
  exact (sources_emitHole (by decide)).bind fun n => .pure fun _ h => h

theorem sources_forStep (hp : p.Sourcing) (hdest : 2 ≤ dest) :
    Yields (Sourced H) (forStep p dest) fun _ => Sourced H :=
  yields_next.bind fun _ => .ite (fun _ => .pure fun _ h => h) fun _ =>
    (sources_expression hp (le_refl _) hdest).closed.bind fun _ => yields_expect _

theorem sources_patchExit (exit : Option Nat) (target : Nat) :
    Yields (Sourced (exit.toList ++ H)) (patchExit exit target) fun _ => Sourced H := by
  cases exit with
  | some n =>
    exact (sources_patch List.mem_cons_self target).consequence (fun _ h => h) fun _ _ h =>
      h.forget (List.subset_cons_self n H)
  | none => exact .pure fun _ h => h

theorem sources_forStatement (hp : p.Sourcing) (hdest : 2 ≤ dest) :
    Yields (Sourced H) (forStatement p dest) (Opens H) := by
  refine (yields_expect _).bind fun _ => sources_openBlock.bind fun _ => ?_
  refine (sources_forStart hp hdest).bind fun _ => sources_here.bind fun top => ?_
  refine (sources_forTest hp hdest).bind fun exit => (sources_emitHole (by decide)).bind fun body => ?_
  refine sources_here.bind fun step => (sources_forStep hp hdest).bind fun _ => ?_
  refine (sources_emit (by decide)).bind fun _ => ?_
  refine sources_landing ?_
  refine sources_openLoop.bind fun _ => (hp.statement _).bind fun _ => ?_
  refine (sources_emit (by decide)).bind fun _ => sources_here.bind fun behind => ?_
  refine (sources_patchExit exit behind).bind fun _ => (sources_closeLoop behind step).bind fun _ => ?_
  exact sources_closeBlock.bind fun _ => .pure fun _ h => h

theorem sources_returnStatement (hp : p.Sourcing) (hdest : 2 ≤ dest) (place : Position) :
    Yields (Sourced H) (returnStatement p dest place) (Opens H) := by
  refine Yields.bind (Q := fun _ => Sourced H) ?_ fun _ => .ite (fun _ => ?_) fun _ => ?_
  · exact yields_next.bind fun t => (yields_pushBack t).bind fun _ => .pure fun _ h => h
  · exact sources_last (by decide)
  · exact (sources_operand hp (le_refl _) hdest).bind fun _ => sources_last (by decide)

theorem sources_leaveLoop (word : Keyword) (place : Position) :
    Yields (Sourced H) (leaveLoop word place) (Opens H) := by
  have hget : Yields (Sourced H) (get : Compile CompileState) fun state f =>
      f.Sourced H ∧ state.current = f := .of_ok fun s hs => ⟨s, s, rfl, hs, rfl⟩
  refine hget.bind fun state => ?_
  split
  · exact yields_fail _ _
  · rename_i labels loops hloops
    refine .of_ok fun s hs => ⟨_, _, rfl, ?_⟩
    obtain ⟨hs, heq⟩ := hs
    -- The jump is appended, so its index is that of the end.
    refine (hs.add (i := ⟨.jump, 0, 0, 0, place⟩) (fun _ h => h) nofun).relabel (heq ▸ hloops)
      fun m hm => ?_
    by_cases hword : word = .breakWord
    · simp only [hword, if_true, List.mem_append, List.mem_singleton] at hm ⊢
      rcases hm with (hm | rfl) | hm
      · exact .inr (.inl hm)
      · exact .inl rfl
      · exact .inr (.inr hm)
    · simp only [hword, if_false, List.mem_append, List.mem_singleton] at hm ⊢
      rcases hm with hm | hm | rfl
      · exact .inr (.inl hm)
      · exact .inr (.inr hm)
      · exact .inl rfl

/-! ## Productions -/

theorem sources_leading (hp : p.Sourcing) (t : Token) {power : Nat}
    (hfits : Power.Fits power dest) :
    Yields (Sourced H) (leading p t power dest) (Opens H) := by
  have hdest : 2 ≤ dest := hfits.elim (·.2) fun h => h.2 ▸ le_refl _
  refine .ite (fun _ => yields_fail _ _) fun _ => ?_
  split
  · exact sources_loadConstant _ _ _
  · exact sources_loadConstant _ _ _
  · exact sources_loadName _ _ _
  · exact yields_fail _ _
  · split
    all_goals first
      | exact sources_paren hp hdest
      | exact sources_arrayLiteral hp hdest _
      | exact sources_dictLiteral hp hdest _
      | exact sources_block hp
      | exact sources_unary hp (by decide) (by decide) hdest _
      | exact sources_stepBefore hp (by decide) hdest _
      | exact yields_fail _ _
  · split
    all_goals first
      | exact sources_last (by decide)
      | exact sources_unary hp (by decide) (by decide) hdest _
      | exact yields_fail _ _
      | exact sources_function hp power hdest _
      | exact sources_newInstance hp hdest _
      | exact sources_delete hp hdest _
      | exact sources_ifStatement hp hdest
      | exact sources_whileStatement hp hdest
      | exact sources_doStatement hp hdest
      | exact sources_forStatement hp hdest
      | exact sources_declarations hp hdest _
      | exact sources_returnStatement hp hdest _
      | exact sources_leaveLoop _ _

theorem sources_climb (hp : p.Sourcing) (power : Nat) (hdest : 2 ≤ dest) (fuel : Nat)
    (left : Operand) : Yields (Opens H left) (climb p power dest fuel left) (Opens H) := by
  induction fuel generalizing left with
  | zero => exact yields_exhausted
  | succ fuel ih =>
    refine yields_next.bind fun t => .ite (fun _ => ?_) fun _ => ?_
    · exact (yields_pushBack t).bind fun _ => .pure fun _ h => h
    · exact (sources_trailing hp t left hdest).bind fun left => ih left

theorem sources_statement (hp : p.Sourcing) :
    Yields (Sourced H) (statement p) fun _ => Sourced H := by
  refine yields_next.bind fun t => .ite (fun _ => .pure fun _ h => h) fun _ =>
    .ite (fun _ => yields_pushBack t) fun _ => ?_
  refine (Yields.closed (hp.expression t (.inr ⟨rfl, rfl⟩) H)).bind fun left =>
    .ite (fun _ => .pure fun _ h => h) fun _ => yields_next.bind fun t => ?_
  exact .ite (fun _ => .pure fun _ h => h) fun _ => .ite (fun _ => yields_pushBack t)
    fun _ => yields_fail _ _

/-- The whole grammar makes functions of literals only, however much fuel it has. -/
theorem sourcing_productions (fuel : Nat) : (productions fuel).Sourcing := by
  induction fuel with
  | zero => exact ⟨confining_productions 0, ⟨0, rfl⟩, fun _ _ _ _ _ => yields_exhausted,
      fun _ => yields_exhausted⟩
  | succ fuel ih =>
    refine ⟨confining_productions _, ⟨_, rfl⟩, fun first power dest hfits H => ?_,
      fun H => sources_statement ih⟩
    have hdest : 2 ≤ dest := hfits.elim (·.2) fun h => h.2 ▸ le_refl _
    exact (sources_leading ih first hfits).bind fun left =>
      .ite (fun _ => .pure fun _ h => h) fun _ => sources_climb ih power hdest _ left

theorem sources_scriptBody (hp : p.Sourcing) (fuel : Nat) :
    Yields (Sourced H) (scriptBody p fuel) fun _ => Sourced H := by
  induction fuel with
  | zero => exact yields_exhausted
  | succ fuel ih =>
    refine yields_next.bind fun t => .ite (fun _ => .pure fun _ h => h) fun _ =>
      .ite (fun _ => yields_fail _ _) fun _ => ?_
    exact (yields_pushBack t).bind fun _ => (hp.statement H).bind fun _ => ih

theorem sources_script (hp : p.Sourcing) :
    Yields (Sourced H) (script p) fun c f => f.Sourced H ∧ c = f.chunk :=
  (sources_scriptBody hp _).bind fun _ => (sources_emit (by decide)).bind fun _ =>
    .of_ok fun s hs => ⟨_, s, rfl, hs, rfl⟩

end Compile

/-- Every function that a compiled script makes, at any depth, is that of a literal, and the chunk
that makes it holds the code of the literal. -/
theorem function_has_literal {source : String} {root c : Chunk} (h : compile source = .ok root)
    (hc : root.Contains c) {n : Nat} {i : Instruction} (hi : c.code[n]? = some i)
    (hop : i.op = .makeFunc) : ∃ r : CompiledLiteral, r.LiesIn c n := by
  unfold compile at h
  dsimp only at h
  split at h
  · rename_i root' s hrun
    cases h
    obtain ⟨hsourced, rfl⟩ := Compile.sources_script (Compile.sourcing_productions _) _
      FunctionState.sourced_script _ _ hrun
    exact hsourced.sourced c hc n i hi hop
  · cases h

end ScriptEngine
