import ScriptEngine.Machine
import ScriptEngine.Proofs.Guarded

/-!
# Chunks built step by step

A chunk is `Built` if it comes from an empty or a compiled chunk by emitting instructions, adding
constants, patching jumps, reserving registers and counting parameters. Nothing is asked of the
operands, so the code need not be one that a compiler makes: jumps may go anywhere, and constants
may be missing.

The ends of the frame are kept up by emitting: all registers that an instruction names are between
them (`Built.framed`), and so is every register of a range that it works on. Such a register is in
the windows that frames of the chunk get (`Built.hasRegister`).
-/

namespace ScriptEngine

/-- A chunk that was made step by step; see the head of the module. -/
inductive Chunk.Built : Chunk → Prop where
  | empty (name : Option String) : Built (.empty name)
  | compiled {c : Chunk} (hc : c.Compiled) : Built c
  | emit {c : Chunk} (hc : Built c) (i : Instruction) : Built (c.emit i)
  | value {c : Chunk} (hc : Built c) (v : Value) : Built (c.addConstant (.value v)).1
  | template {c inner : Chunk} (hc : Built c) (hinner : Built inner) :
      Built (c.addConstant (.template inner)).1
  | patchJump {c : Chunk} (hc : Built c) (index target : Nat) : Built (c.patchJump index target)
  | reserve {c : Chunk} (hc : Built c) (register : Int) : Built (c.reserve register)
  | parameters {c : Chunk} (hc : Built c) (count : Nat) : Built { c with paramCount := count }

/-- Whether an operation works on the registers from its second operand up to its third one. -/
def Op.takesRange : Op → Bool
  | .call | .makeArray | .makeDict | .makeFunc => true
  | _ => false

/-- A register that an instruction names, or that is in the range it works on. -/
def Instruction.Touches (i : Instruction) (r : Int) : Prop :=
  r ∈ i.registers ∨ i.op.takesRange = true ∧ i.b ≤ r ∧ r < i.c

namespace Instruction

variable {i : Instruction}

theorem touches_a (h : i.op.registerOperands.1 = true) : i.Touches i.a :=
  .inl (by simp [registers, h])

theorem touches_b (h : i.op.registerOperands.2.1 = true) : i.Touches i.b :=
  .inl (by simp [registers, h])

theorem touches_c (h : i.op.registerOperands.2.2 = true) : i.Touches i.c :=
  .inl (by simp [registers, h])

end Instruction

namespace Chunk

variable {c d : Chunk} {i : Instruction} {r : Int}

/-- A register is in the windows of a chunk. -/
def HasRegister (c : Chunk) (r : Int) : Prop :=
  0 ≤ (c.base : Int) + r ∧ (c.base : Int) + r < c.windowSize

/-- The ends of the frame are around the first three registers and those of the code. -/
structure Framed (c : Chunk) : Prop where
  floor : c.localFloor ≤ 0
  temps : 3 ≤ c.tempCount
  registers : ∀ i ∈ c.code, ∀ r ∈ i.registers, c.localFloor ≤ r ∧ r < c.tempCount

theorem framed_empty (name : Option String) : (empty name).Framed :=
  ⟨le_refl _, le_refl _, fun _ hi => by simp [empty] at hi⟩

theorem WellFormed.framed (hc : c.WellFormed) : c.Framed := by
  refine ⟨hc.floor, hc.temps, fun i hi => ?_⟩
  obtain ⟨n, hn, rfl⟩ := Array.mem_iff_getElem.1 hi
  exact (hc.fits n _ (Array.getElem?_eq_getElem hn)).registers

namespace Framed

/-- A larger frame is around the same code. -/
theorem mono (hc : c.Framed) (hcode : d.code = c.code) (hfloor : d.localFloor ≤ c.localFloor)
    (htemps : c.tempCount ≤ d.tempCount) : d.Framed := by
  refine ⟨hfloor.trans hc.floor, hc.temps.trans htemps, fun i hi r hr => ?_⟩
  obtain ⟨hge, hlt⟩ := hc.registers i (hcode ▸ hi) r hr
  exact ⟨hfloor.trans hge, hlt.trans_le htemps⟩

theorem emit (hc : c.Framed) (i : Instruction) : (c.emit i).Framed := by
  have hfloor := floor_emit_le c i
  have htemps := le_temps_emit c i
  refine ⟨hfloor.trans hc.floor, hc.temps.trans htemps, fun j hj r hr => ?_⟩
  rcases Array.mem_push.1 hj with hj | rfl
  · obtain ⟨hge, hlt⟩ := hc.registers j hj r hr
    exact ⟨hfloor.trans hge, hlt.trans_le htemps⟩
  · exact registers_emit c j r hr

theorem addConstant (hc : c.Framed) (k : Constant) : (c.addConstant k).1.Framed := by
  unfold Chunk.addConstant
  split
  · exact hc
  · exact hc.mono rfl (le_refl _) (le_refl _)

/-- The target of a jump is no register. -/
theorem patchJump (hc : c.Framed) (index target : Nat) : (c.patchJump index target).Framed := by
  refine ⟨hc.floor, hc.temps, fun j hj => ?_⟩
  obtain ⟨n, hn, rfl⟩ := Array.mem_iff_getElem.1 hj
  have hn' : n < c.code.size := by
    rwa [Chunk.patchJump, size_modifyAt] at hn
  have hold := hc.registers _ (Array.getElem_mem hn')
  simp only [Chunk.patchJump, Chunk.modifyAt, Array.getElem_modify]
  split
  · generalize c.code[n] = i at hold
    obtain ⟨op, a, b, e, place⟩ := i
    cases op with
    | jump => simp [Instruction.registers, Op.registerOperands]
    | _ => exact hold
  · exact hold

theorem reserve (hc : c.Framed) (register : Int) : (c.reserve register).Framed :=
  hc.mono rfl (le_refl _) (Int.le_max_left _ _)

/-- Between the ends of the frame there is room in the window. -/
theorem hasRegister (hc : c.Framed) (hge : c.localFloor ≤ r) (hlt : r < c.tempCount) :
    c.HasRegister r := by
  have hfloor := hc.floor
  have hbase : (c.base : Int) = -c.localFloor := by
    rw [base]
    omega
  have hsize : ((c.tempCount - c.localFloor).toNat : Int) ≤ c.windowSize :=
    Int.ofNat_le.2 (Nat.le_max_left _ _)
  constructor <;> omega

end Framed

namespace Built

theorem framed (hc : c.Built) : c.Framed := by
  induction hc with
  | empty name => exact framed_empty name
  | compiled hc => exact hc.wellFormed.framed
  | emit _ i ih => exact ih.emit i
  | value _ v ih => exact ih.addConstant _
  | template _ _ ih => exact ih.addConstant _
  | patchJump _ index target ih => exact ih.patchJump index target
  | reserve _ register ih => exact ih.reserve register
  | parameters _ _ ih => exact ih.mono rfl (le_refl _) (le_refl _)

theorem mem_addConstant {k k' : Constant} (h : k' ∈ (c.addConstant k).1.constants) :
    k' ∈ c.constants ∨ k' = k := by
  unfold Chunk.addConstant at h
  split at h
  · exact .inl h
  · exact Array.mem_push.1 h

/-- The code of functions in a chunk was built, too. -/
theorem inner (hc : c.Built) (h : .template d ∈ c.constants) : d.Built := by
  induction hc with
  | empty => simp [Chunk.empty] at h
  | compiled hc =>
    obtain ⟨source, root, hroot, hcontains⟩ := hc
    obtain ⟨n, hn, hd⟩ := Array.mem_iff_getElem.1 h
    exact .compiled ⟨source, root, hroot,
      hcontains.trans (.step (Array.getElem?_eq_some_iff.2 ⟨hn, hd⟩) (.refl _))⟩
  | value _ v ih =>
    rcases mem_addConstant h with h | h
    · exact ih h
    · cases h
  | template _ hinner ih =>
    rcases mem_addConstant h with h | h
    · exact ih h
    · cases h
      exact hinner
  | emit _ _ ih | patchJump _ _ _ ih | reserve _ _ ih | parameters _ _ ih => exact ih h

/-- Every register that an instruction touches is in the window. -/
theorem hasRegister (hc : c.Built) (hi : i ∈ c.code) (hr : i.Touches r) : c.HasRegister r := by
  have hregisters := hc.framed.registers i hi
  rcases hr with hr | ⟨hop, hge, hlt⟩
  · exact hc.framed.hasRegister (hregisters r hr).1 (hregisters r hr).2
  · obtain ⟨op, a, b, e, place⟩ := i
    have hends : (⟨op, a, b, e, place⟩ : Instruction).registers = [a, b, e] := by
      cases op <;> first | rfl | cases hop
    rw [hends] at hregisters
    have hb := hregisters b (by simp)
    have he := hregisters e (by simp)
    exact hc.framed.hasRegister (hb.1.trans hge) (hlt.trans he.2)

end Built

end Chunk

end ScriptEngine
