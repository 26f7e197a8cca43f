import ScriptEngine.Proofs.Statement.Layout

/-!
# Registers that code writes

The first registers of a frame hold what it was called with: its activation and its receiver. The
code of an expression leaves them alone, and with them all registers below the one its value goes
into: `Confined b d f` says that the code by which the function `f` in the making is longer than
`b` writes only registers from `d` on and registers of declared locals, and that none of the
instructions of `b` has changed.

What an instruction writes is read off its operation (`Instruction.written`). Instructions are not
only appended: a load may be erased or sent to another register, and jumps get their targets
later. All of these lie behind the end of `b` (`Confined.modify`, `Confined.aim`), also the jumps
that wait in an open loop (`LoopLabels.Behind`).

Below are the rules of the primitive steps of a compilation. The head of `Statement.Segment` tells
how rules are read.
-/

namespace ScriptEngine

/-! ## Registers that an instruction writes -/

/-- Which of the first two operands name a register that the operation writes. -/
def Op.writes : Op → Bool × Bool
  | .dotSet | .dotSetVoid | .delete | .jump | .jumpFalse | .jumpTrue | .ret | .retVoid
  | .registerLocal | .captureUpvalue | .nop => (false, false)
  | .inc | .dec | .postInc | .postDec => (true, true)
  | _ => (true, false)

/-- The registers that an instruction writes. -/
def Instruction.written (i : Instruction) : List Int :=
  (if i.op.writes.1 then [i.a] else []) ++ (if i.op.writes.2 then [i.b] else [])

variable {i : Instruction} {r : Int}

theorem Instruction.mem_written : r ∈ i.written ↔
    i.op.writes.1 = true ∧ r = i.a ∨ i.op.writes.2 = true ∧ r = i.b := by
  unfold written
  cases i.op.writes.1 <;> cases i.op.writes.2 <;> simp

/-- Pointing a jump somewhere does not change what is written. -/
theorem Instruction.written_aim (target : Nat) : (i.aim target).written = i.written := by
  obtain ⟨op, a, b, c, place⟩ := i
  cases op <;> rfl

/-! ## Chunks -/

/-- No code in a chunk, at any depth, writes register 0 or 1. -/
def Chunk.Restrained (c : Chunk) : Prop :=
  ∀ d, c.Contains d → ∀ (n : Nat) i, d.code[n]? = some i → ∀ r ∈ i.written, 2 ≤ r ∨ r < 0

/-- What a chunk keeps while code is added to it. -/
structure Chunk.Grows (c d : Chunk) : Prop where
  params : d.paramCount = c.paramCount
  floor : d.localFloor ≤ c.localFloor
  constants : ∀ (n : Nat) k, c.constants[n]? = some k → d.constants[n]? = some k

theorem Chunk.Grows.refl (c : Chunk) : c.Grows c :=
  ⟨rfl, le_refl _, fun _ _ h => h⟩

theorem Chunk.Grows.trans {c d e : Chunk} (h : c.Grows d) (h' : d.Grows e) : c.Grows e :=
  ⟨h'.params.trans h.params, h'.floor.trans h.floor, fun n k hk =>
    h'.constants n k (h.constants n k hk)⟩

theorem Chunk.Grows.emit (c : Chunk) (i : Instruction) : c.Grows (c.emit i) := by
  refine ⟨rfl, ?_, fun _ _ h => h⟩
  unfold Chunk.emit
  dsimp only
  split
  · exact min_le_left _ _
  · exact le_refl _

theorem Chunk.Grows.addConstant (c : Chunk) (k : Constant) : c.Grows (c.addConstant k).1 := by
  unfold Chunk.addConstant
  split
  · exact .refl c
  · refine ⟨rfl, le_refl _, fun n k' hn => ?_⟩
    have hlt := (Array.getElem?_eq_some_iff.1 hn).1
    dsimp only
    rw [Array.getElem?_push, if_neg (Nat.ne_of_lt hlt), hn]

/-- The functions that a chunk makes do not write register 0 or 1. -/
def Chunk.Tamed (c : Chunk) : Prop :=
  ∀ (n : Nat) inner, c.constants[n]? = some (.template inner) → inner.Restrained

theorem Chunk.Tamed.restrained {c : Chunk} (h : c.Tamed)
    (hc : ∀ (n : Nat) i, c.code[n]? = some i → ∀ r ∈ i.written, 2 ≤ r ∨ r < 0) :
    c.Restrained := by
  intro d hd
  cases hd with
  | refl => exact hc
  | step hn hd => exact h _ _ hn d hd

namespace FunctionState

/-! ## Functions in the making -/

variable {b f g : FunctionState} {d : Int}

/-- A register that was given to a local. -/
def Declared (f : FunctionState) (r : Int) : Prop :=
  f.nextLocal < r ∧ r < 0

/-- The names of open blocks are declared, and the functions made so far leave registers 0 and 1
alone. -/
structure Settled (f : FunctionState) : Prop where
  next : f.nextLocal < 0
  names : ∀ block ∈ f.blocks, ∀ x ∈ block, f.Declared x.2
  tamed : f.chunk.Tamed

/-- The jumps of a loop were there already or lie behind a place. -/
def LoopLabels.Behind (start : Nat) (old new : LoopLabels) : Prop :=
  ∀ n ∈ new.breaks ++ new.continues, n ∈ old.breaks ++ old.continues ∨ start ≤ n

/-- The code of a function behind that of another one writes only registers from one on and
registers of locals; see the head of the module. -/
structure Confined (b : FunctionState) (d : Int) (f : FunctionState) : Prop where
  settled : f.Settled
  size : b.size ≤ f.size
  code : ∀ n, n < b.size → f.chunk.code[n]? = b.chunk.code[n]?
  writes : ∀ n i, b.size ≤ n → f.chunk.code[n]? = some i → ∀ r ∈ i.written, d ≤ r ∨ f.Declared r
  below : f.nextLocal ≤ b.nextLocal
  loops : List.Forall₂ (LoopLabels.Behind b.size) b.loops f.loops
  grows : b.chunk.Grows f.chunk

theorem Declared.mono {r : Int} (h : f.Declared r) (hle : g.nextLocal ≤ f.nextLocal) :
    g.Declared r :=
  ⟨hle.trans_lt h.1, h.2⟩

/-- A name that is found is declared. -/
theorem Settled.resolve (h : f.Settled) {s : String} {r : Int} (hs : f.resolve s = some r) :
    f.Declared r := by
  obtain ⟨block, hblock, hlookup⟩ := List.exists_of_findSome?_eq_some hs
  obtain ⟨l₁, l₂, rfl, -⟩ := List.lookup_eq_some_iff.1 hlookup
  exact h.names _ hblock (s, r) (by simp)

theorem LoopLabels.Behind.trans {m n : Nat} {old mid new : LoopLabels}
    (h : LoopLabels.Behind m old mid) (h' : LoopLabels.Behind n mid new) (hmn : m ≤ n) :
    LoopLabels.Behind m old new := fun k hk =>
  (h' k hk).elim (h k) fun hk => .inr (hmn.trans hk)

theorem LoopLabels.behind_trans {m n : Nat} (hmn : m ≤ n) {old mid new : List LoopLabels}
    (h : List.Forall₂ (LoopLabels.Behind m) old mid)
    (h' : List.Forall₂ (LoopLabels.Behind n) mid new) :
    List.Forall₂ (LoopLabels.Behind m) old new := by
  induction h generalizing new with
  | nil =>
    cases h'
    exact .nil
  | cons hx _ ih =>
    cases h' with
    | cons hy hys => exact .cons (hx.trans hy hmn) (ih hys)

theorem Confined.refl (hb : b.Settled) (d : Int) : b.Confined d b := by
  refine ⟨hb, le_refl _, fun _ _ => rfl, fun n i hn hi => ?_, le_refl _, ?_,
    .refl _⟩
  · have hlt : n < b.chunk.code.size := (Array.getElem?_eq_some_iff.1 hi).1
    exact absurd hlt (Nat.not_lt.2 hn)
  · exact List.forall₂_same.2 fun _ _ _ hn => .inl hn

theorem Confined.trans {d' : Int} (h : b.Confined d f) (h' : f.Confined d' g) (hd : d ≤ d') :
    b.Confined d g := by
  refine ⟨h'.settled, h.size.trans h'.size, fun n hn => ?_, fun n i hn hi r hr => ?_,
    h'.below.trans h.below, LoopLabels.behind_trans h.size h.loops h'.loops,
    h.grows.trans h'.grows⟩
  · rw [h'.code n (hn.trans_le h.size), h.code n hn]
  · by_cases hlt : n < f.size
    · rw [h'.code n hlt] at hi
      exact (h.writes n i hn hi r hr).imp_right (·.mono h'.below)
    · exact (h'.writes n i (not_lt.1 hlt) hi r hr).imp_left hd.trans

/-- An instruction is appended. -/
theorem Confined.push (h : b.Confined d f) {i : Instruction}
    (hi : ∀ r ∈ i.written, d ≤ r ∨ f.Declared r) (hg : g = { f with chunk := f.chunk.emit i }) :
    b.Confined d g := by
  subst hg
  have hget : ∀ n, (f.chunk.emit i).code[n]? = if n = f.size then some i else f.chunk.code[n]? :=
    fun n => Array.getElem?_push
  have hsize : (f.chunk.emit i).code.size = f.size + 1 := Array.size_push _
  refine ⟨⟨h.settled.next, h.settled.names, h.settled.tamed⟩, ?_, fun n hn => ?_,
    fun n j hn hj r hr => ?_, h.below, h.loops, h.grows.trans (.emit _ i)⟩
  · have := h.size
    show b.size ≤ (f.chunk.emit i).code.size
    omega
  · have := h.size
    show (f.chunk.emit i).code[n]? = _
    rw [hget, if_neg (by omega), h.code n hn]
  · change (f.chunk.emit i).code[n]? = some j at hj
    rw [hget] at hj
    split at hj
    · cases hj
      exact hi r hr
    · exact h.writes n j hn hj r hr

/-- An instruction behind the place is changed, and what it writes stays in bounds. -/
theorem Confined.modify (h : b.Confined d f) {m : Nat} {F : Instruction → Instruction}
    {G : Chunk → Chunk} (hcode : (G f.chunk).code = f.chunk.code.modify m F)
    (hconst : (G f.chunk).constants = f.chunk.constants) (hgrows : f.chunk.Grows (G f.chunk))
    (hm : b.size ≤ m) (hF : ∀ i, ∀ r ∈ (F i).written, r ∈ i.written ∨ d ≤ r) :
    b.Confined d { f with chunk := G f.chunk } := by
  have hget : ∀ n, (G f.chunk).code[n]? =
      if m = n then f.chunk.code[n]?.map F else f.chunk.code[n]? := fun n => by
    rw [hcode, Array.getElem?_modify]
  refine ⟨⟨h.settled.next, h.settled.names, ?_⟩, ?_, fun n hn => ?_, fun n j hn hj r hr => ?_,
    h.below, h.loops, h.grows.trans hgrows⟩
  · intro n inner hn
    exact h.settled.tamed n inner (by rw [← hconst]; exact hn)
  · have := h.size
    show b.size ≤ (G f.chunk).code.size
    rw [hcode, Array.size_modify]
    exact this
  · show (G f.chunk).code[n]? = _
    rw [hget, if_neg (by omega), h.code n hn]
  · change (G f.chunk).code[n]? = some j at hj
    rw [hget] at hj
    split at hj
    · obtain ⟨i, hi, rfl⟩ := Option.map_eq_some_iff.1 hj
      rcases hF i r hr with hr | hr
      · exact h.writes n i hn hi r hr
      · exact .inl hr
    · exact h.writes n j hn hj r hr

/-- Jumps behind the place are pointed to a target. -/
theorem Confined.aim (h : b.Confined d f) {ns : List Nat} (hns : ∀ n ∈ ns, b.size ≤ n)
    (target : Nat) : b.Confined d (f.aim ns target) := by
  induction ns generalizing f with
  | nil => exact h
  | cons m ns ih =>
    rw [aim_cons]
    refine ih ?_ fun n hn => hns n (List.mem_cons_of_mem m hn)
    exact h.modify (F := (·.aim target)) (G := (·.patchJump m target)) rfl rfl
      ⟨rfl, le_refl _, fun _ _ h => h⟩ (hns m List.mem_cons_self)
      fun i r hr => .inl (Instruction.written_aim target ▸ hr)

/-- A loop is opened. -/
theorem Confined.enter (h : b.Confined d f) : b.enter.Confined d f.enter :=
  ⟨⟨h.settled.next, h.settled.names, h.settled.tamed⟩, h.size, h.code, h.writes, h.below,
    .cons (fun _ hn => .inl hn) h.loops, h.grows⟩

/-- A loop is closed: the jumps that wait in it lie behind the place where it was opened. -/
theorem Confined.close (h : b.enter.Confined d f) (exit resume : Nat) :
    b.Confined d (f.close exit resume) := by
  obtain ⟨hsettled, hsize, hcode, hwrites, hbelow, hloops, hgrows⟩ := h
  unfold FunctionState.close
  rcases hf : f.loops with _ | ⟨labels, loops⟩
  · rw [hf] at hloops
    cases hloops
  · rw [hf] at hloops
    cases hloops with
    | cons hlabels hrest =>
      have hbehind : ∀ n ∈ labels.breaks ++ labels.continues, b.size ≤ n := fun n hn =>
        (hlabels n hn).resolve_left (by simp)
      have hopen : b.Confined d { f with loops } :=
        ⟨⟨hsettled.next, hsettled.names, hsettled.tamed⟩, hsize, hcode, hwrites, hbelow, hrest,
          hgrows⟩
      exact (hopen.aim (fun n hn => hbehind n (List.mem_append_left _ hn)) exit).aim
        (fun n hn => hbehind n (List.mem_append_right _ hn)) resume

/-- A block is opened. -/
theorem Confined.openBlock (h : b.Confined d f) : b.Confined d f.openBlock :=
  ⟨⟨h.settled.next, fun block hb x hx => (List.mem_cons.1 hb).elim
    (fun heq => absurd hx (heq ▸ List.not_mem_nil)) fun hb => h.settled.names block hb x hx,
      h.settled.tamed⟩, h.size, h.code, h.writes, h.below, h.loops, h.grows⟩

/-- A block is closed. -/
theorem Confined.closeBlock (h : b.Confined d f) : b.Confined d f.closeBlock :=
  ⟨⟨h.settled.next, fun block hb => h.settled.names block (List.mem_of_mem_tail hb),
    h.settled.tamed⟩, h.size, h.code, h.writes, h.below, h.loops, h.grows⟩

/-- Code that starts in a function without code leaves registers 0 and 1 alone. -/
theorem Confined.restrained (h : b.Confined resultRegister f) (hb : b.size = 0) :
    f.chunk.Restrained :=
  h.settled.tamed.restrained fun n i hi r hr =>
    (h.writes n i (hb ▸ Nat.zero_le n) hi r hr).imp_right (·.2)

/-- The innermost loop gets jumps that are behind the place. -/
theorem Confined.relabel (h : b.Confined d f) {labels labels' : LoopLabels}
    {loops : List LoopLabels} (hf : f.loops = labels :: loops)
    (hnew : LoopLabels.Behind b.size labels labels') :
    b.Confined d { f with loops := labels' :: loops } := by
  refine ⟨⟨h.settled.next, h.settled.names, h.settled.tamed⟩, h.size, h.code, h.writes, h.below, ?_,
    h.grows⟩
  have hloops := h.loops
  rw [hf] at hloops
  cases hb : b.loops with
  | nil =>
    rw [hb] at hloops
    cases hloops
  | cons old outer =>
    rw [hb] at hloops
    cases hloops with
    | cons hold hrest => exact .cons (hold.trans hnew (le_refl _)) hrest

/-- The same function with room for locals below a register only. -/
def under (b : FunctionState) (r : Int) : FunctionState :=
  { b with nextLocal := min b.nextLocal (r - 1) }

theorem Confined.under {r : Int} (h : b.Confined d f) (hr : f.Declared r) :
    (b.under r).Confined d f :=
  ⟨h.settled, h.size, h.code, h.writes, le_min h.below (by have := hr.1; omega), h.loops,
    h.grows⟩

theorem Confined.over {r : Int} (h : (b.under r).Confined d f) : b.Confined d f :=
  ⟨h.settled, h.size, h.code, h.writes, h.below.trans (min_le_left _ _), h.loops, h.grows⟩

theorem Confined.declared {r : Int} (h : (b.under r).Confined d f) (hr : r < 0) : f.Declared r :=
  ⟨(h.below.trans (min_le_right _ _)).trans_lt (by omega), hr⟩

/-- A name is declared. -/
theorem Confined.declare (h : b.Confined d f) (name : String) :
    b.Confined d (f.declare name).1 ∧ (f.declare name).1.Declared (f.declare name).2 := by
  obtain ⟨⟨hnext, hnames, htamed⟩, hsize, hcode, hwrites, hbelow, hloops, hgrows⟩ := h
  unfold FunctionState.declare
  dsimp only
  split
  next register hlookup =>
    refine ⟨⟨⟨hnext, hnames, htamed⟩, hsize, hcode, hwrites, hbelow, hloops, hgrows⟩, ?_⟩
    rcases hb : f.blocks with _ | ⟨block, outer⟩
    · rw [hb] at hlookup
      cases hlookup
    · rw [hb] at hlookup
      obtain ⟨l₁, l₂, rfl, -⟩ := List.lookup_eq_some_iff.1 hlookup
      exact hnames _ (by rw [hb]; exact List.mem_cons_self) (name, register) (by simp)
  next =>
    have hmono : ∀ r, f.Declared r → f.nextLocal - 1 < r ∧ r < 0 := fun r hr =>
      ⟨by have := hr.1; omega, hr.2⟩
    refine ⟨⟨⟨by dsimp only; omega, fun block hblock x hx => ?_, htamed⟩, hsize, hcode,
      fun n i hn hi r hr => (hwrites n i hn hi r hr).imp_right (hmono r), by dsimp only; omega,
      hloops, hgrows.trans ⟨rfl, min_le_left _ _, fun _ _ h => h⟩⟩, ⟨by dsimp only; omega, hnext⟩⟩
    rcases hb : f.blocks with _ | ⟨first, outer⟩
    · simp only [hb, List.mem_singleton] at hblock
      subst hblock
      obtain rfl := List.mem_singleton.1 hx
      exact ⟨by dsimp only; omega, hnext⟩
    · simp only [hb, List.mem_cons] at hblock
      rcases hblock with rfl | hblock
      · rcases List.mem_cons.1 hx with rfl | hx
        · exact ⟨by dsimp only; omega, hnext⟩
        · exact hmono _ (hnames first (by rw [hb]; exact List.mem_cons_self) x hx)
      · exact hmono _ (hnames block (by rw [hb]; exact List.mem_cons_of_mem _ hblock) x hx)

/-- A constant is added. -/
theorem Confined.addConstant (h : b.Confined d f) {k : Constant}
    (hk : ∀ inner, k = .template inner → inner.Restrained) :
    b.Confined d { f with chunk := (f.chunk.addConstant k).1 } := by
  have hcode : (f.chunk.addConstant k).1.code = f.chunk.code := by
    unfold Chunk.addConstant
    split <;> rfl
  have htamed : (f.chunk.addConstant k).1.Tamed := by
    unfold Chunk.addConstant
    split
    · exact h.settled.tamed
    · intro n inner hn
      dsimp only at hn
      rw [Array.getElem?_push] at hn
      split at hn
      · exact hk inner (Option.some.inj hn)
      · exact h.settled.tamed n inner hn
  refine ⟨⟨h.settled.next, h.settled.names, htamed⟩, ?_, ?_, ?_, h.below, h.loops,
    h.grows.trans (.addConstant _ k)⟩
  · simpa only [FunctionState.size, hcode] using h.size
  · simpa only [hcode] using h.code
  · exact fun n i hn hi => h.writes n i hn (hcode ▸ hi)

end FunctionState

namespace Compile

open FunctionState

variable {b : FunctionState} {d : Int}

/-! ## Rules of the primitive steps -/

theorem confines_emitAt {place : Position} {op : Op} {x y z : Int}
    (hop : ∀ f : FunctionState, b.Confined d f →
      (op.writes.1 = true → d ≤ x ∨ f.Declared x) ∧ (op.writes.2 = true → d ≤ y ∨ f.Declared y)) :
    Yields (b.Confined d) (emitAt place op x y z) fun n f => b.Confined d f ∧ b.size ≤ n := by
  refine .of_ok fun s hs => ⟨_, _, emitAt_apply place op x y z s, ?_, hs.size⟩
  refine hs.push (i := ⟨op, x, y, z, place⟩) (fun r hr => ?_) rfl
  rcases Instruction.mem_written.1 hr with ⟨hw, rfl⟩ | ⟨hw, rfl⟩
  · exact (hop _ hs).1 hw
  · exact (hop _ hs).2 hw

/-- An instruction that writes no register. -/
theorem confines_silent {place : Position} {op : Op} {x y z : Int}
    (hop : op.writes = (false, false)) :
    Yields (b.Confined d) (emitAt place op x y z) fun n f => b.Confined d f ∧ b.size ≤ n :=
  confines_emitAt fun _ _ => by simp [hop]

/-- An instruction that writes a temporary. -/
theorem confines_temp {place : Position} {op : Op} {x y z : Int} (hop : op.writes.2 = false)
    (hx : d ≤ x) :
    Yields (b.Confined d) (emitAt place op x y z) fun n f => b.Confined d f ∧ b.size ≤ n :=
  confines_emitAt fun _ _ => ⟨fun _ => .inl hx, fun h => by rw [hop] at h; cases h⟩

theorem confines_patch {n : Nat} (hn : b.size ≤ n) (target : Nat) :
    Yields (b.Confined d) (patch n target) fun _ => b.Confined d := by
  have hall : ∀ m ∈ [n], b.size ≤ m := by simpa using hn
  exact .of_ok fun s hs => ⟨(), _, rfl, hs.aim hall target⟩

theorem confines_here : Yields (b.Confined d) here fun n f => b.Confined d f ∧ b.size ≤ n :=
  .of_ok fun s hs => ⟨_, s, rfl, hs, hs.size⟩

theorem confines_constant {k : Constant} (hk : ∀ inner, k = .template inner → inner.Restrained) :
    Yields (b.Confined d) (constant k) fun _ => b.Confined d :=
  .of_ok fun s hs => ⟨_, _, constant_apply k s, hs.addConstant hk⟩

theorem confines_name (s : String) : Yields (b.Confined d) (name s) fun _ => b.Confined d :=
  confines_constant nofun

theorem confines_declare (s : String) :
    Yields (b.Confined d) (declare s) fun register f => b.Confined d f ∧ f.Declared register :=
  .of_ok fun _ hs => ⟨_, _, rfl, hs.declare s⟩

theorem confines_modify {m : Nat} {F : Instruction → Instruction} {G : Chunk → Chunk}
    (hcode : ∀ c, (G c).code = c.code.modify m F)
    (hsame : ∀ c, (G c).constants = c.constants ∧ (G c).paramCount = c.paramCount ∧
      (G c).localFloor = c.localFloor) (hm : b.size ≤ m)
    (hF : ∀ i, ∀ r ∈ (F i).written, r ∈ i.written ∨ d ≤ r) :
    Yields (b.Confined d) (modifyChunk G) fun _ => b.Confined d :=
  .of_ok fun _ hs => ⟨(), _, rfl, hs.modify (hcode _) (hsame _).1
    ⟨(hsame _).2.1, (hsame _).2.2.le, fun _ _ h => by rwa [(hsame _).1]⟩ hm hF⟩

theorem confines_erase {load : Nat} (hload : b.size ≤ load) :
    Yields (b.Confined d) (erase load) fun _ => b.Confined d :=
  confines_modify (F := ({ · with op := .nop })) (fun _ => rfl) (fun _ => ⟨rfl, rfl, rfl⟩) hload
    fun _ _ hr => by cases hr

theorem confines_retarget {load : Nat} (hload : b.size ≤ load) {dest : Int} (hdest : d ≤ dest)
    (receiver key : Int) :
    Yields (b.Confined d) (retarget load dest receiver key) fun t f =>
      b.Confined d f ∧ dest < t := by
  have habove : dest < above dest receiver key := by
    unfold above
    omega
  refine (confines_modify (F := ({ · with a := above dest receiver key }))
    (G := fun c => (c.modifyAt load ({ · with a := above dest receiver key })).reserve
      (above dest receiver key + 1)) (fun _ => rfl) (fun _ => ⟨rfl, rfl, rfl⟩) hload fun i r hr => ?_).bind
    fun _ => .pure fun _ h => ⟨h, habove⟩
  rcases Instruction.mem_written.1 hr with ⟨-, rfl⟩ | ⟨hw, rfl⟩
  · exact .inr (by dsimp only; omega)
  · exact .inl (Instruction.mem_written.2 (.inr ⟨hw, rfl⟩))

end Compile

end ScriptEngine
