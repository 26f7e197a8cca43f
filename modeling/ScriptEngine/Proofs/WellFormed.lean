import Mathlib.Tactic
import ScriptEngine.Chunk

/-!
# Well-formed chunks

A chunk is *well formed* if its frames can run its code without leaving the chunk: registers lie
inside the frame, constants inside the pool, jumps inside the code, and what is made into a
function, or bound as one, is in a register that the instruction right before it filled with a
function.

While code is being made, jumps may also go to the place where the next instruction will stand.
`Sound` is the property that holds then. Emitting, patching and rewriting instructions keep it,
and a return at the end turns it into `WellFormed`. Whether a jump may go to a place is the
subject of `Landing`: a place is a landing if it does not stand between the parts of a function
in the making, and landings stay landings as the code grows.
-/

namespace ScriptEngine

/-! ## What operands mean -/

/-- Whether an operation takes a function out of register `a`. -/
def Op.takesFunction : Op → Bool
  | .makeFunc | .bindClosure => true
  | _ => false

namespace Instruction

/-- The operand that is a jump target. -/
def target? (i : Instruction) : Option Int :=
  match i.op with
  | .jump => some i.a
  | .jumpFalse | .jumpTrue => some i.b
  | _ => none

/-- The operand that must be the index of a name. -/
def name? (i : Instruction) : Option Int :=
  match i.op with
  | .registerLocal => some i.b
  | .captureUpvalue => some i.a
  | .newObject => if i.c = -1 then none else some i.c
  | _ => none

/-- The operand that is the index of a constant. -/
def constant? (i : Instruction) : Option Int :=
  match i.op with
  | .loadConst => some i.b
  | _ => i.name?

end Instruction

namespace Chunk

/-- The constant at an index, which may be out of range. -/
def constantAt? (c : Chunk) (k : Int) : Option Constant :=
  if 0 ≤ k then c.constants[k.toNat]? else none

/-- The name at an index of the constants. -/
def nameAt? (c : Chunk) (k : Int) : Option String :=
  match c.constantAt? k with
  | some (.value (.str s)) => some s
  | _ => none

/-- A chunk and the chunks of the functions in its constants, at any depth. -/
inductive Contains : Chunk → Chunk → Prop
  | refl (c : Chunk) : Contains c c
  | step {c inner d : Chunk} {n : Nat} :
      c.constants[n]? = some (.template inner) → Contains inner d → Contains c d

/-- An instruction leaves a function in a register: it loads the code of one or makes one. -/
def Fills (c : Chunk) (i : Instruction) (r : Int) : Prop :=
  i.a = r ∧
    (i.op = .makeFunc ∨ i.op = .loadConst ∧ ∃ inner, c.constantAt? i.b = some (.template inner))

/-- Where a jump may go: inside the code or right behind it, and not to an instruction that takes
a function. -/
def Landing (c : Chunk) (t : Nat) : Prop :=
  t ≤ c.code.size ∧ ∀ i, c.code[t]? = some i → i.op.takesFunction = false

/-- The operands of the instruction at an index are in order. -/
structure Fits (c : Chunk) (n : Nat) (i : Instruction) : Prop where
  registers : ∀ r ∈ i.registers, c.localFloor ≤ r ∧ r < c.tempCount
  constant : ∀ k, i.constant? = some k → (c.constantAt? k).isSome
  name : ∀ k, i.name? = some k → (c.nameAt? k).isSome
  target : ∀ t, i.target? = some t → ∃ m : Nat, t = m ∧ c.Landing m
  filled : i.op.takesFunction = true → ∃ j, 0 < n ∧ c.code[n - 1]? = some j ∧ c.Fills j i.a
  /-- Names are given to locals only. -/
  named : i.op = .registerLocal → i.a < 0

/-- The code of a well-formed chunk. -/
structure WellFormed (c : Chunk) : Prop where
  floor : c.localFloor ≤ 0
  temps : 3 ≤ c.tempCount
  fits : ∀ (n : Nat) i, c.code[n]? = some i → c.Fits n i
  /-- Jumps stay inside the code. -/
  inside : ∀ (n : Nat) i t, c.code[n]? = some i → i.target? = some t → t < c.code.size
  /-- The last instruction leaves the frame. -/
  leaves : ∃ i, c.code.back? = some i ∧ i.op = .ret

/-- A constant that compiled code may have: a number, a string, or the code of a function that is
well formed with all it contains. -/
def Pooled : Constant → Prop
  | .value (.number _) | .value (.str _) => True
  | .value _ => False
  | .template inner => ∀ d, inner.Contains d → d.WellFormed

/-- The code of a chunk in the making. -/
structure Sound (c : Chunk) : Prop where
  floor : c.localFloor ≤ 0
  temps : 3 ≤ c.tempCount
  fits : ∀ (n : Nat) i, c.code[n]? = some i → c.Fits n i
  pooled : ∀ (n : Nat) k, c.constants[n]? = some k → Pooled k

/-- What a chunk in the making keeps as it grows: its landings and its constants. -/
structure Extends (c d : Chunk) : Prop where
  landing : ∀ t, c.Landing t → d.Landing t
  constants : ∀ (n : Nat) k, c.constants[n]? = some k → d.constants[n]? = some k

theorem Extends.refl (c : Chunk) : c.Extends c :=
  ⟨fun _ h => h, fun _ _ h => h⟩

theorem Extends.trans {c d e : Chunk} (h₁ : c.Extends d) (h₂ : d.Extends e) : c.Extends e :=
  ⟨fun t h => h₂.landing t (h₁.landing t h), fun n k h => h₂.constants n k (h₁.constants n k h)⟩

theorem Extends.constantAt {c d : Chunk} (h : c.Extends d) {k : Int} {v : Constant}
    (hk : c.constantAt? k = some v) : d.constantAt? k = some v := by
  unfold constantAt? at hk ⊢
  split at hk
  · rw [if_pos ‹_›]
    exact h.constants _ _ hk
  · cases hk

theorem Extends.nameAt {c d : Chunk} (h : c.Extends d) {k : Int} {s : String}
    (hk : c.nameAt? k = some s) : d.nameAt? k = some s := by
  unfold nameAt? at hk
  split at hk
  · rename_i t ht
    rw [nameAt?, h.constantAt ht]
    exact hk
  · cases hk

theorem Extends.fills {c d : Chunk} (h : c.Extends d) {j : Instruction} {r : Int}
    (hj : c.Fills j r) : d.Fills j r := by
  refine ⟨hj.1, hj.2.imp_right fun hl => ⟨hl.1, ?_⟩⟩
  obtain ⟨inner, hi⟩ := hl.2
  exact ⟨inner, h.constantAt hi⟩

/-- Operands that are in order stay so in a larger chunk, provided that what fills their register
is still there. -/
theorem Fits.mono {c d : Chunk} (h : c.Extends d) (hfloor : d.localFloor ≤ c.localFloor)
    (htemps : c.tempCount ≤ d.tempCount) {n : Nat} {i : Instruction} (hi : c.Fits n i)
    (hprev : i.op.takesFunction = true → ∀ j, c.code[n - 1]? = some j → c.Fills j i.a →
      d.code[n - 1]? = some j) : d.Fits n i where
  registers r hr := ⟨hfloor.trans (hi.registers r hr).1, (hi.registers r hr).2.trans_le htemps⟩
  constant k hk := by
    obtain ⟨v, hv⟩ := Option.isSome_iff_exists.1 (hi.constant k hk)
    rw [h.constantAt hv]
    rfl
  name k hk := by
    obtain ⟨s, hs⟩ := Option.isSome_iff_exists.1 (hi.name k hk)
    rw [h.nameAt hs]
    rfl
  target t ht := by
    obtain ⟨m, hm, hl⟩ := hi.target t ht
    exact ⟨m, hm, h.landing m hl⟩
  filled ht := by
    obtain ⟨j, hn, hj, hf⟩ := hi.filled ht
    exact ⟨j, hn, hprev ht j hj hf, h.fills hf⟩
  named := hi.named

/-! ## Emitting -/

theorem emit_code (c : Chunk) (i : Instruction) : (c.emit i).code = c.code.push i := rfl

@[simp] theorem emit_constants (c : Chunk) (i : Instruction) :
    (c.emit i).constants = c.constants := rfl

@[simp] theorem size_emit (c : Chunk) (i : Instruction) :
    (c.emit i).code.size = c.code.size + 1 :=
  Array.size_push _

theorem floor_emit_le (c : Chunk) (i : Instruction) : (c.emit i).localFloor ≤ c.localFloor := by
  unfold emit
  dsimp only
  split
  · exact Int.min_le_left _ _
  · exact le_refl _

theorem le_temps_emit (c : Chunk) (i : Instruction) : c.tempCount ≤ (c.emit i).tempCount := by
  unfold emit
  dsimp only
  split
  · exact Int.le_max_left _ _
  · exact le_refl _

/-- The frame is large enough for the registers of an emitted instruction. -/
theorem registers_emit (c : Chunk) (i : Instruction) :
    ∀ r ∈ i.registers, (c.emit i).localFloor ≤ r ∧ r < (c.emit i).tempCount := by
  intro r hr
  constructor
  · obtain ⟨m, hm⟩ := List.isSome_min?_of_mem hr |> Option.isSome_iff_exists.1
    have hle : m ≤ r := (List.min?_eq_some_iff.1 hm).2 r hr
    simp only [emit, Instruction.minRegister?, hm]
    exact (Int.min_le_right _ _).trans hle
  · obtain ⟨m, hm⟩ := List.isSome_max?_of_mem hr |> Option.isSome_iff_exists.1
    have hle : r ≤ m := (List.max?_eq_some_iff.1 hm).2 r hr
    simp only [emit, Instruction.maxRegister?, hm]
    have := Int.le_max_right c.tempCount (m + 1)
    omega

theorem getElem?_emit_lt {c : Chunk} {i : Instruction} {n : Nat} (h : n < c.code.size) :
    (c.emit i).code[n]? = c.code[n]? := by
  rw [emit_code, Array.getElem?_push, if_neg (by omega)]

theorem getElem?_emit_self (c : Chunk) (i : Instruction) :
    (c.emit i).code[c.code.size]? = some i := by
  rw [emit_code, Array.getElem?_push, if_pos rfl]

theorem lt_of_getElem? {c : Chunk} {n : Nat} {i : Instruction} (h : c.code[n]? = some i) :
    n < c.code.size :=
  (Array.getElem?_eq_some_iff.1 h).1

/-- What stands in the code after an instruction was emitted. -/
theorem of_getElem?_emit {c : Chunk} {i j : Instruction} {n : Nat}
    (h : (c.emit i).code[n]? = some j) : c.code[n]? = some j ∨ n = c.code.size ∧ j = i := by
  have hn : n < c.code.size + 1 := by simpa using lt_of_getElem? h
  rcases Nat.lt_succ_iff_lt_or_eq.1 hn with hlt | rfl
  · left
    rwa [getElem?_emit_lt hlt] at h
  · right
    rw [getElem?_emit_self] at h
    exact ⟨rfl, (Option.some.inj h).symm⟩

theorem extends_emit {c : Chunk} {i : Instruction} (h : i.op.takesFunction = false) :
    c.Extends (c.emit i) where
  landing t ht := by
    refine ⟨by rw [size_emit]; exact ht.1.trans (Nat.le_succ _), fun j hj => ?_⟩
    rcases of_getElem?_emit hj with hj | ⟨-, rfl⟩
    · exact ht.2 j hj
    · exact h
  constants _ _ hk := hk

/-- The place behind the code is a landing. -/
theorem landing_size (c : Chunk) : c.Landing c.code.size :=
  ⟨le_refl _, fun _ hi => absurd (lt_of_getElem? hi) (lt_irrefl _)⟩

/-- The conditions under which an instruction may be emitted that takes no function. -/
structure Admits (c : Chunk) (i : Instruction) : Prop where
  plain : i.op.takesFunction = false
  constant : ∀ k, i.constant? = some k → (c.constantAt? k).isSome
  name : ∀ k, i.name? = some k → (c.nameAt? k).isSome
  target : ∀ t, i.target? = some t → ∃ m : Nat, t = m ∧ c.Landing m
  named : i.op = .registerLocal → i.a < 0

theorem Sound.emit {c : Chunk} {i : Instruction} (hc : c.Sound) (hi : c.Admits i) :
    (c.emit i).Sound := by
  have hext : c.Extends (c.emit i) := extends_emit hi.plain
  refine ⟨(floor_emit_le c i).trans hc.floor, hc.temps.trans (le_temps_emit c i), ?_, hc.pooled⟩
  intro n j hj
  rcases of_getElem?_emit hj with hj | ⟨rfl, rfl⟩
  · refine (hc.fits n j hj).mono hext (floor_emit_le c i) (le_temps_emit c i) fun _ k hk _ => ?_
    rw [getElem?_emit_lt (lt_of_getElem? hk), hk]
  · refine ⟨registers_emit c j, hi.constant, hi.name, fun t ht => ?_, fun ht => ?_, hi.named⟩
    · obtain ⟨m, hm, hl⟩ := hi.target t ht
      exact ⟨m, hm, hext.landing m hl⟩
    · rw [hi.plain] at ht
      cases ht

/-! ## Functions in the making -/

/-- No jump goes to the place behind the code. -/
def Inside (c : Chunk) : Prop :=
  ∀ (n : Nat) i t, c.code[n]? = some i → i.target? = some t → t < c.code.size

theorem Sound.inside_emit {c : Chunk} {i : Instruction} (hc : c.Sound) (hi : c.Admits i) :
    (c.emit i).Inside := by
  intro n j t hj ht
  obtain ⟨m, rfl, hm⟩ : ∃ m : Nat, t = m ∧ c.Landing m := by
    rcases of_getElem?_emit hj with hj | ⟨-, rfl⟩
    · exact (hc.fits n j hj).target t ht
    · exact hi.target t ht
  have := hm.1
  rw [size_emit]
  omega

theorem target?_of_takesFunction {i : Instruction} (h : i.op.takesFunction = true) :
    i.target? = none := by
  unfold Instruction.target?
  split <;> simp_all [Op.takesFunction]

theorem constant?_of_takesFunction {i : Instruction} (h : i.op.takesFunction = true) :
    i.constant? = none := by
  unfold Instruction.constant? Instruction.name?
  split <;> simp_all [Op.takesFunction]
  split <;> simp_all

theorem name?_of_takesFunction {i : Instruction} (h : i.op.takesFunction = true) :
    i.name? = none := by
  unfold Instruction.name?
  split <;> simp_all [Op.takesFunction]

/-- An instruction that takes a function may be emitted right behind one that leaves a function
in its register, if no jump comes in between. -/
theorem Sound.emit_taking {c : Chunk} {i j : Instruction} (hc : c.Sound) (hin : c.Inside)
    (ht : i.op.takesFunction = true) (hj : c.code[c.code.size - 1]? = some j)
    (hf : c.Fills j i.a) : (c.emit i).Sound ∧ (c.emit i).Inside := by
  have hpos : 0 < c.code.size := (Nat.zero_le _).trans_lt (lt_of_getElem? hj)
  have hland : ∀ t : Nat, t < c.code.size → c.Landing t → (c.emit i).Landing t := by
    intro t hlt hl
    refine ⟨by rw [size_emit]; omega, fun k hk => hl.2 k ?_⟩
    rwa [getElem?_emit_lt hlt] at hk
  constructor
  · refine ⟨(floor_emit_le c i).trans hc.floor, hc.temps.trans (le_temps_emit c i), ?_, hc.pooled⟩
    intro n k hk
    rcases of_getElem?_emit hk with hk | ⟨rfl, rfl⟩
    · have h := hc.fits n k hk
      refine ⟨fun r hr => ?_, h.constant, h.name, fun t ht => ?_, fun hkt => ?_, h.named⟩
      · have := h.registers r hr
        have := floor_emit_le c i
        have := le_temps_emit c i
        omega
      · obtain ⟨m, rfl, hm⟩ := h.target t ht
        exact ⟨m, rfl, hland m (by have := hin n k m hk ht; omega) hm⟩
      · obtain ⟨l, hn, hl, hfl⟩ := h.filled hkt
        exact ⟨l, hn, by rw [getElem?_emit_lt (lt_of_getElem? hl), hl], hfl⟩
    · refine ⟨registers_emit c k, fun _ h => ?_, fun _ h => ?_, fun _ h => ?_, fun _ => ?_,
        fun h => ?_⟩
      · rw [constant?_of_takesFunction ht] at h
        cases h
      · rw [name?_of_takesFunction ht] at h
        cases h
      · rw [target?_of_takesFunction ht] at h
        cases h
      · exact ⟨j, hpos, by rw [getElem?_emit_lt (by omega), hj], hf⟩
      · rw [h] at ht
        cases ht
  · intro n k t hk hkt
    rcases of_getElem?_emit hk with hk | ⟨-, rfl⟩
    · have := hin n k t hk hkt
      rw [size_emit]
      omega
    · rw [target?_of_takesFunction ht] at hkt
      cases hkt

/-- The code that makes a function of a template and binds it. -/
def emitFunction (c : Chunk) (dest k behind : Int) (place : Position) : Chunk :=
  ((c.emit ⟨.loadConst, dest, k, 0, place⟩).emit ⟨.makeFunc, dest, dest + 1, behind, place⟩).emit
    ⟨.bindClosure, dest, 0, 0, place⟩

theorem admits_loadConst {c : Chunk} {k : Int} (hk : (c.constantAt? k).isSome) (dest : Int)
    (place : Position) : c.Admits ⟨.loadConst, dest, k, 0, place⟩ where
  plain := rfl
  constant _ h := by cases h; exact hk
  name _ h := by cases h
  target _ h := by cases h
  named h := by cases h

theorem Sound.emitFunction {c : Chunk} {dest k behind : Int} {place : Position} {inner : Chunk}
    (hc : c.Sound) (hk : c.constantAt? k = some (.template inner)) :
    (c.emitFunction dest k behind place).Sound ∧
      c.Extends (c.emitFunction dest k behind place) := by
  have hadm : c.Admits ⟨.loadConst, dest, k, 0, place⟩ := admits_loadConst (by rw [hk]; rfl) _ _
  have hlast : ∀ (d : Chunk) (i : Instruction), (d.emit i).code[(d.emit i).code.size - 1]? = some i :=
    fun d i => by rw [size_emit, Nat.add_sub_cancel, getElem?_emit_self]
  obtain ⟨hs₂, hi₂⟩ := (hc.emit hadm).emit_taking (hc.inside_emit hadm)
    (i := ⟨.makeFunc, dest, dest + 1, behind, place⟩) rfl (hlast _ _)
    ⟨rfl, .inr ⟨rfl, inner, hk⟩⟩
  obtain ⟨hs₃, -⟩ := hs₂.emit_taking hi₂ (i := ⟨.bindClosure, dest, 0, 0, place⟩) rfl
    (hlast _ _) ⟨rfl, .inl rfl⟩
  refine ⟨hs₃, fun t ht => ⟨?_, fun i hi => ?_⟩, fun _ _ h => h⟩
  · have := ht.1
    simp only [Chunk.emitFunction, size_emit]
    omega
  · have hle := ht.1
    unfold Chunk.emitFunction at hi
    rw [getElem?_emit_lt (by simp only [size_emit]; omega),
      getElem?_emit_lt (by simp only [size_emit]; omega)] at hi
    exact ((extends_emit (c := c) (i := ⟨.loadConst, dest, k, 0, place⟩) rfl).landing t ht).2 i hi

/-! ## Rewriting -/

/-- An instruction may stand in the place of another one. -/
structure Replaces (c : Chunk) (i j : Instruction) : Prop where
  /-- Nothing behind the old instruction counts on the function it leaves. -/
  spare : i.op ≠ .loadConst ∧ i.op ≠ .makeFunc
  registers : ∀ r ∈ j.registers, c.localFloor ≤ r ∧ r < c.tempCount
  admits : c.Admits j

theorem modifyAt_code (c : Chunk) (m : Nat) (f : Instruction → Instruction) :
    (c.modifyAt m f).code = c.code.modify m f := rfl

@[simp] theorem modifyAt_constants (c : Chunk) (m : Nat) (f : Instruction → Instruction) :
    (c.modifyAt m f).constants = c.constants := rfl

@[simp] theorem size_modifyAt (c : Chunk) (m : Nat) (f : Instruction → Instruction) :
    (c.modifyAt m f).code.size = c.code.size :=
  Array.size_modify

theorem getElem?_modifyAt (c : Chunk) (m n : Nat) (f : Instruction → Instruction) :
    (c.modifyAt m f).code[n]? = if m = n then c.code[n]?.map f else c.code[n]? := by
  rw [modifyAt_code, Array.getElem?_modify]

theorem extends_modifyAt {c : Chunk} {m : Nat} {f : Instruction → Instruction}
    (hf : ∀ i, c.code[m]? = some i → f i = i ∨ c.Replaces i (f i)) :
    c.Extends (c.modifyAt m f) where
  landing t ht := by
    refine ⟨by rw [size_modifyAt]; exact ht.1, fun j hj => ?_⟩
    rw [getElem?_modifyAt] at hj
    split at hj
    · subst m
      obtain ⟨i, hi, rfl⟩ := Option.map_eq_some_iff.1 hj
      rcases hf i hi with h | h
      · rw [h]
        exact ht.2 i hi
      · exact h.admits.plain
    · exact ht.2 j hj
  constants _ _ hk := hk

theorem Sound.modifyAt {c : Chunk} {m : Nat} {f : Instruction → Instruction} (hc : c.Sound)
    (hf : ∀ i, c.code[m]? = some i → f i = i ∨ c.Replaces i (f i)) : (c.modifyAt m f).Sound := by
  have hext : c.Extends (c.modifyAt m f) := extends_modifyAt hf
  -- What fills a register is never rewritten.
  have hprev : ∀ (n : Nat) (i j : Instruction), c.code[n]? = some j → c.Fills j i.a →
      (c.modifyAt m f).code[n]? = some j := by
    intro n i j hj hfill
    rw [getElem?_modifyAt]
    split
    · subst m
      rcases hf j hj with h | h
      · rw [hj, Option.map_some, h]
      · rcases hfill.2 with hop | ⟨hop, -⟩
        · exact absurd hop h.spare.2
        · exact absurd hop h.spare.1
    · exact hj
  have hold : ∀ (n : Nat) i, c.code[n]? = some i → (c.modifyAt m f).Fits n i := fun n i hi =>
    (hc.fits n i hi).mono hext (le_refl _) (le_refl _) fun _ j hj hfill => hprev _ i j hj hfill
  refine ⟨hc.floor, hc.temps, fun n j hj => ?_, hc.pooled⟩
  rw [getElem?_modifyAt] at hj
  split at hj
  · subst m
    obtain ⟨i, hi, rfl⟩ := Option.map_eq_some_iff.1 hj
    rcases hf i hi with h | h
    · rw [h]
      exact hold n i hi
    · refine ⟨h.registers, h.admits.constant, h.admits.name, fun t ht => ?_, fun ht => ?_,
        h.admits.named⟩
      · obtain ⟨l, hl, hland⟩ := h.admits.target t ht
        exact ⟨l, hl, hext.landing l hland⟩
      · rw [h.admits.plain] at ht
        cases ht
  · exact hold n j hj

theorem patchJump_replaces {c : Chunk} {t : Nat} (hc : c.Sound) (ht : c.Landing t) {n : Nat}
    {i : Instruction} (hi : c.code[n]? = some i) :
    let j := match i.op with
      | .jump => { i with a := (t : Int) }
      | .jumpFalse | .jumpTrue => { i with b := (t : Int) }
      | _ => i
    j = i ∨ c.Replaces i j := by
  have hregs := (hc.fits n i hi).registers
  obtain ⟨op, a, b, e, place⟩ := i
  have hjump : ∀ j : Instruction, j.op.takesFunction = false → j.constant? = none →
      j.name? = none → j.target? = some (t : Int) → c.Admits j := fun j h₁ h₂ h₃ h₄ =>
    ⟨h₁, fun k hk => by simp [h₂] at hk, fun k hk => by simp [h₃] at hk,
      fun u hu => ⟨t, (Option.some.inj (h₄.symm.trans hu)).symm, ht⟩,
      fun h => by simp [Instruction.target?, h] at h₄⟩
  cases op with
  | jump =>
    refine .inr ⟨⟨nofun, nofun⟩, ?_, hjump _ rfl rfl rfl rfl⟩
    simp [Instruction.registers, Op.registerOperands]
  | jumpFalse => exact .inr ⟨⟨nofun, nofun⟩, hregs, hjump _ rfl rfl rfl rfl⟩
  | jumpTrue => exact .inr ⟨⟨nofun, nofun⟩, hregs, hjump _ rfl rfl rfl rfl⟩
  | _ => exact .inl rfl

theorem Sound.patchJump {c : Chunk} {t : Nat} (hc : c.Sound) (ht : c.Landing t) (m : Nat) :
    (c.patchJump m t).Sound ∧ c.Extends (c.patchJump m t) :=
  ⟨hc.modifyAt fun _ hi => patchJump_replaces hc ht hi,
    extends_modifyAt fun _ hi => patchJump_replaces hc ht hi⟩

theorem Sound.reserve {c : Chunk} (hc : c.Sound) (r : Int) : (c.reserve r).Sound := by
  have hle : c.tempCount ≤ (c.reserve r).tempCount := Int.le_max_left _ _
  have hext : c.Extends (c.reserve r) := ⟨fun _ h => h, fun _ _ h => h⟩
  exact ⟨hc.floor, hc.temps.trans hle,
    fun n i hi => (hc.fits n i hi).mono hext (le_refl _) hle fun _ j hj _ => hj, hc.pooled⟩

theorem extends_reserve (c : Chunk) (r : Int) : c.Extends (c.reserve r) :=
  ⟨fun _ h => h, fun _ _ h => h⟩

/-- A lower end of the frame harms nothing. -/
theorem Sound.lower {c : Chunk} (hc : c.Sound) (r : Int) :
    ({ c with localFloor := min c.localFloor r } : Chunk).Sound := by
  have hle : min c.localFloor r ≤ c.localFloor := Int.min_le_left _ _
  have hext : c.Extends { c with localFloor := min c.localFloor r } :=
    ⟨fun _ h => h, fun _ _ h => h⟩
  exact ⟨hle.trans hc.floor, hc.temps,
    fun n i hi => (hc.fits n i hi).mono hext hle (le_refl _) fun _ j hj _ => hj, hc.pooled⟩

/-! ## Constants -/

/-- A constant that was added is found at its index, or one that counts as the same. -/
theorem addConstant_found (c : Chunk) (k : Constant) :
    ∃ k', (c.addConstant k).1.constants[(c.addConstant k).2]? = some k' ∧
      (k' = k ∨ interns k' k = true) := by
  unfold addConstant
  split
  · rename_i i hi
    obtain ⟨hlt, hi, -⟩ := Array.findIdx?_eq_some_iff_getElem.1 hi
    exact ⟨c.constants[i], Array.getElem?_eq_getElem hlt, .inr hi⟩
  · exact ⟨k, by simp, .inl rfl⟩

theorem extends_addConstant (c : Chunk) (k : Constant) : c.Extends (c.addConstant k).1 := by
  unfold addConstant
  split
  · exact .refl c
  · refine ⟨fun _ h => h, fun n v hv => ?_⟩
    have hlt : n < c.constants.size := (Array.getElem?_eq_some_iff.1 hv).1
    simp only [Array.getElem?_push]
    rw [if_neg (by omega), hv]

theorem Sound.addConstant {c : Chunk} {k : Constant} (hc : c.Sound) (hk : Pooled k) :
    (c.addConstant k).1.Sound := by
  have hext := extends_addConstant c k
  unfold Chunk.addConstant at hext ⊢
  split at hext
  · exact hc
  · refine ⟨hc.floor, hc.temps, fun n i hi => ?_, fun n v hv => ?_⟩
    · exact (hc.fits n i hi).mono hext (le_refl _) (le_refl _) fun _ j hj _ => hj
    · rw [Array.getElem?_push] at hv
      split at hv
      · cases hv
        exact hk
      · exact hc.pooled n v hv

theorem constantAt?_natCast (c : Chunk) (n : Nat) : c.constantAt? n = c.constants[n]? := by
  simp [constantAt?]

theorem addConstant_name (c : Chunk) (s : String) :
    (c.addConstant (.value (.str s))).1.nameAt? (c.addConstant (.value (.str s))).2 = some s := by
  obtain ⟨k, hk, h⟩ := addConstant_found c (.value (.str s))
  rw [nameAt?, constantAt?_natCast, hk]
  rcases h with rfl | h
  · rfl
  · unfold interns at h
    split at h <;> simp_all

theorem addConstant_template (c inner : Chunk) :
    (c.addConstant (.template inner)).1.constantAt? (c.addConstant (.template inner)).2 =
      some (.template inner) := by
  obtain ⟨k, hk, h⟩ := addConstant_found c (.template inner)
  rw [constantAt?_natCast, hk]
  rcases h with rfl | h
  · rfl
  · unfold interns at h
    split at h <;> simp_all

theorem constantAt?_isSome_of_nameAt? {c : Chunk} {k : Int} {s : String}
    (h : c.nameAt? k = some s) : (c.constantAt? k).isSome := by
  unfold nameAt? at h
  split at h
  · rename_i t ht
    rw [ht]
    rfl
  · cases h

/-! ## Finished chunks -/

theorem sound_empty (name : Option String) : (empty name).Sound where
  floor := le_refl _
  temps := le_refl _
  fits n i hi := by simp [empty] at hi
  pooled n k hk := by simp [empty] at hk

/-- A return at the end of sound code makes the chunk well formed. -/
theorem Sound.wellFormed_emit_ret {c : Chunk} (hc : c.Sound) (r : Int) (place : Position) :
    (c.emit ⟨.ret, r, 0, 0, place⟩).WellFormed := by
  have hadm : c.Admits ⟨.ret, r, 0, 0, place⟩ := ⟨rfl, nofun, nofun, nofun, nofun⟩
  have hs := hc.emit hadm
  exact ⟨hs.floor, hs.temps, hs.fits, hc.inside_emit hadm, _, Array.back?_push, rfl⟩

/-- A well-formed chunk with sound constants is well formed at every depth. -/
theorem Sound.wellFormed_of_contains {c d : Chunk} (hc : c.Sound) (hw : c.WellFormed)
    (h : c.Contains d) : d.WellFormed := by
  cases h with
  | refl => exact hw
  | step hk hd => exact hc.pooled _ _ hk _ hd

end Chunk

end ScriptEngine
