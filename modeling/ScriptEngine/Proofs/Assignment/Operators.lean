import ScriptEngine.Proofs.Assignment.Reference
import ScriptEngine.Proofs.Expression.Targets

/-!
# Operators with any target

An operator that assigns finds the load of its target emitted: it is erased, sent to another
register or replaced (`FunctionState.Changes`), and the code of the operator stands behind it. The
code in front of the load is not touched, so it still finds what the target refers to.

`Change.run` says what an operator does: the parts of the target come first, then the target is read
if the operator needs that, then the right side is evaluated, and at the end the target is written or
removed. `x.Performs b f dest m` says that the code by which the function in the making grew from `b`
to `f` does what `m` does. The theorems `performs_*` show this of the code that is made for locals
and for members.
-/

namespace ScriptEngine

open Compile

/-! ## What operators do -/

/-- The register in which an operator computes. -/
def Operand.spare (dest : Int) : Operand → Int
  | .member receiver key _ => above dest receiver key
  | _ => dest

/-- The operators that change what their operand refers to. -/
inductive Change where
  | assign (op : AssignOp)
  | stepBefore (op : StepOp)
  | stepAfter (op : StepOp)
  | delete

namespace Change

/-- What an operator at a place does, step by step. `refer` finds what the target refers to, which
does not read it, and `right` evaluates the right side. Assignments with an operation and steps read
the target in between; while the right side is evaluated, what was read waits in a register. At the
end the target is written or removed. -/
def run (x : Context) (place : Position) (spare : Int) (refer : Script Reference)
    (right : Script Value) : Change → Script Value
  | .assign .plain => do
    let ref ← refer
    let v ← right
    ref.set x place v
    return v
  | .assign (.compound _ op _) => do
    let ref ← refer
    let old ← x.keep spare (ref.get x)
    let w ← right
    let v ← Script.tracing place (op.combine old w)
    ref.set x place v
    return v
  | .stepBefore op => do
    let ref ← refer
    let old ← ref.get x
    let v ← Script.tracing place (op.next old)
    ref.set x place v
    return v
  | .stepAfter op => do
    let ref ← refer
    let old ← ref.get x
    let v ← Script.tracing place (op.next old)
    ref.set x place v
    return old
  | .delete => do
    let ref ← refer
    ref.remove x place
    return .void

/-- The register of the right side. -/
def rightRegister (spare : Int) : Change → Int
  | .assign (.compound _ _ _) => spare + 1
  | _ => spare

end Change

/-- The code by which the function `f` is longer than `b` does what a computation does, with its
value in a register; the temporaries below are kept. -/
def Context.Performs (x : Context) (b f : FunctionState) (dest : Int) (m : Script Value) : Prop :=
  x.Proper → x.frame.chunk.Shows b.size f.size f →
    ∀ e, x.frame.Sits e → x.frame.contents e 0 = x.scope →
      match m e with
      | .ok v e' => x.frame.Sits e' ∧ ∃ k T, T dest = v ∧
          (∀ r, 0 ≤ r → r < dest → T r = x.frame.contents e r) ∧ ∀ fuel,
          x.frame.run x.call (fuel + k) b.size e = x.frame.run x.call fuel f.size (x.frame.fill T e')
      | .error failure e' => ∃ k T, ∀ fuel,
          x.frame.run x.call (fuel + k) b.size e = .error failure (x.frame.fill T e')

namespace Context

variable {x : Context} {dest : Int} {b f : FunctionState}

theorem Performs.of_ends {m : Script Value}
    (h : x.Proper → x.frame.chunk.Shows b.size f.size f → ∀ P, (∀ T, P T → T 0 = x.scope) →
      x.Ends P b.size m f.size fun v T => T dest = v ∧ Kept dest P T) : x.Performs b f dest m := by
  intro hx hF e he hscope
  have hend := h hx hF (· = x.frame.contents e) (by rintro T rfl; exact hscope) e he rfl
  rcases hm : m e with ⟨v, e'⟩ | ⟨failure, e'⟩ <;> rw [hm] at hend
  · obtain ⟨hsits, T, ⟨hv, T₁, rfl, hsame⟩, k, hk⟩ := hend
    refine ⟨hsits, k, T, hv, hsame, fun fuel => ?_⟩
    have := hk fuel
    rwa [Frame.fill_contents] at this
  · obtain ⟨k, T, hk⟩ := hend
    refine ⟨k, T, fun fuel => ?_⟩
    have := hk fuel
    rwa [Frame.fill_contents] at this

end Context

/-! ## Code in front of an operator -/

/-- The instruction at an index was changed. -/
structure FunctionState.Changes (f : FunctionState) (load : Nat) (M : Instruction → Instruction)
    (g : FunctionState) : Prop where
  code : g.chunk.code = f.chunk.code.modify load M
  constants : g.chunk.constants = f.chunk.constants
  settled : f.Settled → g.Settled

namespace FunctionState.Changes

variable {f g : FunctionState} {load : Nat} {M : Instruction → Instruction}

theorem of_chunk {c : Chunk} (hcode : c.code = f.chunk.code.modify load M)
    (hconstants : c.constants = f.chunk.constants) : f.Changes load M { f with chunk := c } :=
  ⟨hcode, hconstants, fun h => ⟨h.next, h.names, fun n inner hn => h.tamed n inner (hconstants ▸ hn)⟩⟩

theorem modifyAt (f : FunctionState) (load : Nat) (M : Instruction → Instruction) :
    f.Changes load M { f with chunk := f.chunk.modifyAt load M } :=
  of_chunk rfl rfl

theorem retarget (f : FunctionState) (load : Nat) (t : Int) :
    f.Changes load ({ · with a := t })
      { f with chunk := (f.chunk.modifyAt load ({ · with a := t })).reserve (t + 1) } :=
  of_chunk rfl rfl

theorem refl (f : FunctionState) (load : Nat) : f.Changes load id f := by
  refine ⟨Array.ext_getElem? fun k => ?_, rfl, id⟩
  rw [Array.getElem?_modify]
  split
  · exact Option.map_id_apply.symm
  · rfl

theorem size (h : f.Changes load M g) : g.size = f.size := by
  rw [FunctionState.size, h.code, Array.size_modify]
  rfl

end FunctionState.Changes

namespace Chunk.Shows

variable {F : Chunk} {first : Nat} {f g : FunctionState}

theorem add {i : Instruction} (h : F.Shows first (f.add i).size (f.add i)) :
    F.Shows first f.size f ∧ (first ≤ f.size → F.code[f.size]? = some i) := by
  have hlt : f.size < (f.add i).size := by
    rw [FunctionState.size_add]
    exact Nat.lt_succ_self _
  refine ⟨⟨fun k hk hk' => ?_, h.names⟩, fun hfirst => ?_⟩
  · rw [h.code k hk (hk'.trans hlt), FunctionState.getElem?_add_of_lt _ _ hk']
  · rw [h.code _ hfirst hlt, FunctionState.getElem?_add]

/-- The last instruction was changed. -/
theorem changed {load : Nat} {i : Instruction} {M : Instruction → Instruction}
    (h : F.Shows first g.size g) (hg : f.Changes load M g) (hsize : f.size = load + 1)
    (hfirst : first ≤ load) (hi : f.chunk.code[load]? = some i) :
    F.Shows first load f ∧ F.code[load]? = some (M i) := by
  have hsize' : g.size = load + 1 := hg.size.trans hsize
  refine ⟨⟨fun k hk hlt => ?_, fun k t ht => h.names k t ?_⟩, ?_⟩
  · rw [h.code k hk (by omega), hg.code, Array.getElem?_modify, if_neg (by omega)]
  · simpa only [Chunk.nameAt?, Chunk.constantAt?, hg.constants] using ht
  · rw [h.code load hfirst (by omega), hg.code, Array.getElem?_modify, if_pos rfl, hi]
    rfl

/-- The code of a right side was added. -/
theorem right {n : Nat} {register : Int} {left : Operand} {s s' : CompileState}
    (h : F.Shows first s'.current.size s'.current)
    (hparse : parse (productions n) (Power.assignment - 1) register s = .ok left s')
    (hs : s.current.Settled) (hregister : 2 ≤ register) (hfirst : first ≤ s.current.size) :
    F.Shows first s.current.size s.current ∧
      F.Encloses register s.current.size s'.current.size := by
  have hpower : Power.expression ≤ Power.assignment - 1 := by decide
  have hgrown := (yields_parse (adding_productions n) hpower s (.refl _) _ _ hparse).1
  have hconfined := (confines_parse (confining_productions n) hpower hregister (le_refl _) s
    (.refl hs _) _ _ hparse).1
  exact ⟨h.before hconfined hgrown.size (le_refl _),
    (h.narrow hfirst (le_refl _)).encloses hgrown.toSegment hconfined⟩

end Chunk.Shows

/-! ## The operand -/

namespace Operand

theorem le_spare (dest : Int) (left : Operand) : dest ≤ left.spare dest := by
  cases left with
  | member receiver key load => exact (lt_above receiver key dest).1.le
  | _ => exact le_refl dest

/-- Where the parts of a target are, below the register in which the operator computes. -/
theorem Holds.kept {left : Operand} {d : Int} {q : Position} {ref : Reference}
    {T T' : Int → Value} (h : left.Holds q T ref) (hleft : left.InPlace)
    (hT : ∀ r, 0 ≤ r → r < left.spare d → T' r = T r) : left.Holds q T' ref := by
  cases left with
  | slot register load => exact h
  | member receiver key load =>
    have habove := lt_above receiver key d
    obtain rfl : ref = .member q (T receiver) (T key) := h
    rw [← hT receiver hleft.1 habove.2.1, ← hT key hleft.2 habove.2.2]
    rfl
  | _ => exact h

end Operand

namespace Context

variable {x : Context} {P : (Int → Value) → Prop} {d : Int} {pc start stop : Nat} {left : Operand}
  {q : Position} {ref : Reference} {T T' : Int → Value}

theorem Located.same (h : Located d P left q ref T) (hleft : left.InPlace)
    (hT : ∀ r, 0 ≤ r → r < left.spare d → T' r = T r) : Located d P left q ref T' :=
  ⟨h.1.kept hleft hT,
    Kept.trans ⟨T, h.2, fun r hr hlt => hT r hr (hlt.trans_le (left.le_spare d))⟩ (le_refl d)⟩

/-- The load of an operand reads what it refers to. -/
theorem Exact.loads (hx : x.Proper) (hd : 0 ≤ d) (hleft : left.InPlace)
    (hi : x.frame.chunk.code[pc]? = some (left.fetch (left.spare d) q)) :
    x.Exact (Located d P left q ref) pc (x.keep (left.spare d) (ref.get x)) (pc + 1)
      fun old T => T (left.spare d) = old ∧ Located d P left q ref T := by
  have hspare := hd.trans (left.le_spare d)
  have hhas : x.frame.Has (left.spare d) := by
    have hfits := (Frame.has_of_fits (hx.frame.wellFormed.fits pc _ hi)).1
    cases left <;> first | exact hfits rfl | exact hleft.elim
  have hall : (∀ r, 0 ≤ r → x.frame.Spares r (ref.get x)) →
      (∀ T, Located d P left q ref T → x.Runs T pc (ref.get x) (pc + 1)
        fun v T' => T' = Function.update T (left.spare d) v) →
      x.Exact (Located d P left q ref) pc (x.keep (left.spare d) (ref.get x)) (pc + 1)
        fun old T => T (left.spare d) = old ∧ Located d P left q ref T :=
    fun hspares hruns => (Exact.written hx hspare hhas hspares hruns).imp
      fun old T ⟨hold, T₁, hlocated, hsame⟩ => ⟨hold, hlocated.same hleft hsame⟩
  intro e he hP
  cases left with
  | slot register load =>
    obtain rfl : ref = .slot q register := hP.1
    exact hall (fun r hr => .tracing .read q) (fun T _ => x.runs_readLocal hx hi hd hleft) e he hP
  | member receiver key load =>
    obtain ⟨v, k, rfl⟩ : ∃ v k, ref = .member q v k := ⟨_, _, hP.1⟩
    refine hall (fun r hr => .tracing (.calm hr (Script.calm_getMember hx.call _ _)) q)
      (fun T hT => ?_) e he hP
    obtain ⟨rfl, rfl⟩ : v = T receiver ∧ k = T key := by
      obtain ⟨-, hv, hk⟩ := Reference.member.inj hT.1
      exact ⟨hv, hk⟩
    exact x.runs_dot hx hi hspare hleft.1 hleft.2
  | temp => exact hleft.elim
  | done => exact hleft.elim

/-- The right side, while the parts of a target wait. -/
theorem Exact.right (hx : x.Proper) (hleft : left.InPlace)
    (h : x.frame.chunk.Encloses (left.spare d) start stop) :
    x.Exact (Located d P left q ref) start (x.evaluate start stop (left.spare d)) stop
      fun v T => T (left.spare d) = v ∧ Located d P left q ref T :=
  (Exact.evaluate hx h (left.spare d)).imp fun _ _ ⟨hv, _, hlocated, hsame⟩ =>
    ⟨hv, hlocated.same hleft hsame⟩

/-- The right side, while also the value of the target waits. -/
theorem Exact.rightAbove {old : Value} (hx : x.Proper) (hd : 0 ≤ d) (hleft : left.InPlace)
    (h : x.frame.chunk.Encloses (left.spare d + 1) start stop) :
    x.Exact (fun T => T (left.spare d) = old ∧ Located d P left q ref T) start
      (x.evaluate start stop (left.spare d + 1)) stop fun w T =>
        T (left.spare d + 1) = w ∧ T (left.spare d) = old ∧ Located d P left q ref T := by
  have hspare := hd.trans (left.le_spare d)
  exact (Exact.evaluate hx h (left.spare d + 1)).imp
    fun _ _ ⟨hw, _, ⟨hold, hlocated⟩, hsame⟩ => ⟨hw, (hsame _ hspare (by omega)).trans hold,
      hlocated.same hleft fun r hr hlt => hsame r hr (by omega)⟩

end Context

/-- The code of a target whose load was changed. -/
theorem Target.changed {x : Context} {dest : Int} {b f g : FunctionState} {left : Operand}
    {refer : Script Reference} {load pc' : Nat} {M : Instruction → Instruction}
    {P : (Int → Value) → Prop} {k : Reference → Script Value} {R : Value → (Int → Value) → Prop}
    (h : Target x dest b left f refer) (hx : x.Proper) (hb : b.Settled) (hd : 2 ≤ dest)
    (hload : left.load? = some load) (hg : f.Changes load M g)
    (hF : x.frame.chunk.Shows b.size g.size g) (hP : ∀ T, P T → T 0 = x.scope)
    (hk : ∀ q ref, load + 1 = g.size → x.frame.chunk.code[load]? = some (M (left.fetch dest q)) →
      left.InPlace → x.Ends (Context.Located dest P left q ref) load (k ref) pc' R) :
    x.Ends P b.size (refer >>= k) pc' R := by
  obtain ⟨load', q, hload', hsize, hle, hfetch, hleft, hfinds⟩ := h.locates hx hb hd
  obtain rfl := Option.some.inj (hload.symm.trans hload')
  obtain ⟨hfront, hi⟩ := hF.changed hg hsize hle hfetch
  exact (hfinds hfront P hP).ends fun ref => hk q ref (hsize.symm.trans hg.size.symm) hi hleft

/-! ## Assignments -/

section

variable {x : Context} {dest r a c : Int} {b : FunctionState} {load n : Nat} {place : Position}
  {refer : Script Reference} {s s₁ s₂ : CompileState} {right : Operand}

/-- Where the compiler is when it has made the code of a target and changed the load. -/
theorem Target.next {f g : FunctionState} {left : Operand} {M : Instruction → Instruction}
    (h : Target x dest b left f refer) (hb : b.Settled) (hd : 2 ≤ dest) (hg : f.Changes load M g) :
    g.Settled ∧ b.size ≤ g.size :=
  ⟨hg.settled (h.confined hb hd).settled, hg.size ▸ (h.confined hb hd).size⟩

theorem performs_assignLocal (htarget : Target x dest b (.slot r load) s.current refer)
    (hb : b.Settled) (hd : 2 ≤ dest)
    (hs₁ : s.current.Changes load ({ · with op := .nop }) s₁.current)
    (hparse : parse (productions n) (Power.assignment - 1) dest s₁ = .ok right s₂) :
    x.Performs b (s₂.current.add ⟨.copy, r, dest, 0, place⟩) dest
      ((Change.assign .plain).run x place dest refer
        (x.evaluate s.current.size s₂.current.size dest)) := by
  refine .of_ends fun hx hF P hP => ?_
  obtain ⟨hsettled, hle⟩ := htarget.next hb hd hs₁
  obtain ⟨hF₂, hcopy⟩ := hF.add
  obtain ⟨hF₁, hright⟩ := hF₂.right hparse hsettled hd hle
  have hle₂ := hle.trans hright.le
  rw [hs₁.size] at hright
  refine htarget.changed hx hb hd rfl hs₁ hF₁ hP fun q ref hsize hnop hr => .nop hx hnop ?_
  rw [hsize, hs₁.size]
  refine (Context.Exact.right hx hr hright).andThen fun v T ⟨hv, href, hkept⟩ => ?_
  obtain rfl : ref = .slot q r := href
  obtain rfl : T dest = v := hv
  rw [FunctionState.size_add]
  refine (x.runs_assignLocal hx (hcopy hle₂) (by omega) hr).bind fun _ T' hT' => .pure ?_
  subst hT'
  exact ⟨rfl, hkept⟩

theorem performs_assignMember (htarget : Target x dest b (.member a c load) s.current refer)
    (hb : b.Settled) (hd : 2 ≤ dest)
    (hs₁ : s.current.Changes load ({ · with op := .nop }) s₁.current)
    (hparse : parse (productions n) (Power.assignment - 1) (above dest a c) s₁ = .ok right s₂) :
    x.Performs b ((s₂.current.add ⟨.dotSet, a, c, above dest a c, place⟩).add
        ⟨.copy, dest, above dest a c, 0, place⟩) dest
      ((Change.assign .plain).run x place (above dest a c) refer
        (x.evaluate s.current.size s₂.current.size (above dest a c))) := by
  refine .of_ends fun hx hF P hP => ?_
  have habove := lt_above a c dest
  obtain ⟨hsettled, hle⟩ := htarget.next hb hd hs₁
  obtain ⟨hF₃, hcopy⟩ := hF.add
  obtain ⟨hF₂, hset⟩ := hF₃.add
  obtain ⟨hF₁, hright⟩ := hF₂.right hparse hsettled (by omega) hle
  have hle₂ := hle.trans hright.le
  rw [hs₁.size] at hright
  refine htarget.changed hx hb hd rfl hs₁ hF₁ hP fun q ref hsize hnop hplace => .nop hx hnop ?_
  rw [hsize, hs₁.size]
  refine (Context.Exact.right hx hplace hright).andThen fun v T ⟨hv, href, hkept⟩ => ?_
  obtain rfl : ref = .member q (T a) (T c) := href
  obtain rfl : T (above dest a c) = v := hv
  simp only [FunctionState.size_add] at hcopy ⊢
  refine (runs_store hx (hset hle₂) (hcopy (by omega)) hplace.1 hplace.2 (by omega) (by omega)
    (by omega)).imp fun v T' ⟨hv, hbelow⟩ => ⟨hv, hkept.below hbelow⟩

variable {kind : Token.Kind} {o : Op} {ho : kind.compoundOp? = some o}

theorem performs_compoundLocal (htarget : Target x dest b (.slot r load) s.current refer)
    (hb : b.Settled) (hd : 2 ≤ dest)
    (hparse : parse (productions n) (Power.assignment - 1) (dest + 1) s = .ok right s₂) :
    x.Performs b ((s₂.current.add ⟨o, dest, dest, dest + 1, place⟩).add
        ⟨.copy, r, dest, 0, place⟩) dest
      ((Change.assign (.compound kind o ho)).run x place dest refer
        (x.evaluate s.current.size s₂.current.size (dest + 1))) := by
  refine .of_ends fun hx hF P hP => ?_
  have hsame := FunctionState.Changes.refl s.current load
  obtain ⟨hsettled, hle⟩ := htarget.next hb hd hsame
  obtain ⟨hF₃, hcopy⟩ := hF.add
  obtain ⟨hF₂, hop⟩ := hF₃.add
  obtain ⟨hF₁, hright⟩ := hF₂.right hparse hsettled (by omega) hle
  have hle₂ := hle.trans hright.le
  refine htarget.changed hx hb hd rfl hsame hF₁ hP fun q ref hsize hload hr => ?_
  refine (Context.Exact.loads hx (by omega) hr hload).ends fun old => ?_
  rw [hsize]
  refine (Context.Exact.rightAbove hx (by omega) hr hright).andThen
    fun w T ⟨hw, hold, href, hkept⟩ => ?_
  obtain rfl : ref = .slot q r := href
  obtain rfl : T (dest + 1) = w := hw
  obtain rfl : T dest = old := hold
  simp only [FunctionState.size_add] at hcopy ⊢
  have hcombines : o.combines = true :=
    AssignOp.combines (show (AssignOp.compound kind o ho).op? = some o from rfl)
  exact (runs_combineLocal hx hcombines (hop hle₂) (hcopy (by omega)) (by omega) hr).imp
    fun v T' ⟨hv, hbelow⟩ => ⟨hv, hkept.below hbelow⟩

theorem performs_compoundMember (htarget : Target x dest b (.member a c load) s.current refer)
    (hb : b.Settled) (hd : 2 ≤ dest)
    (hs₁ : s.current.Changes load ({ · with a := above dest a c }) s₁.current)
    (hparse : parse (productions n) (Power.assignment - 1) (above dest a c + 1) s₁ = .ok right s₂) :
    x.Performs b (((s₂.current.add ⟨o, above dest a c, above dest a c, above dest a c + 1, place⟩).add
        ⟨.dotSet, a, c, above dest a c, place⟩).add ⟨.copy, dest, above dest a c, 0, place⟩) dest
      ((Change.assign (.compound kind o ho)).run x place (above dest a c) refer
        (x.evaluate s.current.size s₂.current.size (above dest a c + 1))) := by
  refine .of_ends fun hx hF P hP => ?_
  have habove := lt_above a c dest
  obtain ⟨hsettled, hle⟩ := htarget.next hb hd hs₁
  obtain ⟨hF₄, hcopy⟩ := hF.add
  obtain ⟨hF₃, hset⟩ := hF₄.add
  obtain ⟨hF₂, hop⟩ := hF₃.add
  obtain ⟨hF₁, hright⟩ := hF₂.right hparse hsettled (by omega) hle
  have hle₂ := hle.trans hright.le
  rw [hs₁.size] at hright
  refine htarget.changed hx hb hd rfl hs₁ hF₁ hP fun q ref hsize hload hplace => ?_
  refine (Context.Exact.loads hx (by omega) hplace hload).ends fun old => ?_
  rw [hsize, hs₁.size]
  refine (Context.Exact.rightAbove hx (by omega) hplace hright).andThen
    fun w T ⟨hw, hold, href, hkept⟩ => ?_
  obtain rfl : ref = .member q (T a) (T c) := href
  obtain rfl : T (above dest a c + 1) = w := hw
  obtain rfl : T (above dest a c) = old := hold
  simp only [FunctionState.size_add] at hset hcopy ⊢
  have hcombines : o.combines = true :=
    AssignOp.combines (show (AssignOp.compound kind o ho).op? = some o from rfl)
  exact (runs_combineMember hx hcombines (hop hle₂) (hset (by omega)) (hcopy (by omega)) (by omega)
    hplace.1 hplace.2 habove).imp fun v T' ⟨hv, hbelow⟩ => ⟨hv, hkept.below hbelow⟩

end

/-! ## Steps and deletions -/

section

variable {x : Context} {dest r a c : Int} {b : FunctionState} {load : Nat} {place : Position}
  {refer : Script Reference} {f g : FunctionState} {right : Script Value}

section

variable (htarget : Target x dest b (.slot r load) f refer) (hb : b.Settled) (hd : 2 ≤ dest)
  (hg : f.Changes load ({ · with op := .nop }) g)

include htarget hb hd hg

theorem performs_stepBeforeLocal (op : StepOp) :
    x.Performs b (g.add ⟨op.before, dest, r, 0, place⟩) dest
      ((Change.stepBefore op).run x place dest refer right) := by
  refine .of_ends fun hx hF P hP => ?_
  obtain ⟨hF₁, hstep⟩ := hF.add
  refine htarget.changed hx hb hd rfl hg hF₁ hP fun q ref hsize hnop hr => .nop hx hnop ?_
  rw [hsize, FunctionState.size_add]
  refine .of_runs fun T ⟨href, hkept⟩ => ?_
  obtain rfl : ref = .slot q r := href
  refine (x.runs_stepBeforeLocal hx op (hstep (htarget.next hb hd hg).2) (by omega) hr q).imp
    fun v T' hT' => ?_
  have hwritten := (Below.refl dest T).written v
  rw [hT']
  exact ⟨hwritten.1, hkept.below hwritten.2⟩

theorem performs_stepAfterLocal (op : StepOp) :
    x.Performs b (g.add ⟨op.after, dest, r, 0, place⟩) dest
      ((Change.stepAfter op).run x place dest refer right) := by
  refine .of_ends fun hx hF P hP => ?_
  obtain ⟨hF₁, hstep⟩ := hF.add
  refine htarget.changed hx hb hd rfl hg hF₁ hP fun q ref hsize hnop hr => .nop hx hnop ?_
  rw [hsize, FunctionState.size_add]
  refine .of_runs fun T ⟨href, hkept⟩ => ?_
  obtain rfl : ref = .slot q r := href
  refine (x.runs_stepAfterLocal hx op (hstep (htarget.next hb hd hg).2) (by omega) hr q).imp
    fun v T' hT' => ?_
  have hwritten := (Below.refl dest T).written v
  rw [hT']
  exact ⟨hwritten.1, hkept.below hwritten.2⟩

theorem performs_deleteLocal :
    x.Performs b ((g.add ⟨.loadVoid, r, 0, 0, place⟩).add ⟨.loadVoid, dest, 0, 0, place⟩) dest
      (Change.delete.run x place dest refer right) := by
  refine .of_ends fun hx hF P hP => ?_
  obtain ⟨-, hle⟩ := htarget.next hb hd hg
  obtain ⟨hF₂, hvoid⟩ := hF.add
  obtain ⟨hF₁, hclear⟩ := hF₂.add
  refine htarget.changed hx hb hd rfl hg hF₁ hP fun q ref hsize hnop hr => .nop hx hnop ?_
  rw [hsize]
  refine .of_runs fun T ⟨href, hkept⟩ => ?_
  obtain rfl : ref = .slot q r := href
  simp only [FunctionState.size_add] at hvoid ⊢
  exact (runs_deleteLocal hx (hclear hle) (hvoid (by omega)) (by omega) hr).imp
    fun v T' ⟨hv, hbelow⟩ => ⟨hv, hkept.below hbelow⟩

end

section

variable (htarget : Target x dest b (.member a c load) f refer) (hb : b.Settled) (hd : 2 ≤ dest)

include htarget hb hd

theorem performs_stepBeforeMember (hg : f.Changes load ({ · with a := above dest a c }) g)
    (op : StepOp) :
    x.Performs b (((g.add ⟨op.before, above dest a c, above dest a c, 0, place⟩).add
        ⟨.dotSet, a, c, above dest a c, place⟩).add ⟨.copy, dest, above dest a c, 0, place⟩) dest
      ((Change.stepBefore op).run x place (above dest a c) refer right) := by
  refine .of_ends fun hx hF P hP => ?_
  obtain ⟨-, hle⟩ := htarget.next hb hd hg
  obtain ⟨hF₃, hcopy⟩ := hF.add
  obtain ⟨hF₂, hset⟩ := hF₃.add
  obtain ⟨hF₁, hstep⟩ := hF₂.add
  refine htarget.changed hx hb hd rfl hg hF₁ hP fun q ref hsize hload hplace => ?_
  refine .of_runs fun T ⟨href, hkept⟩ => ?_
  obtain rfl : ref = .member q (T a) (T c) := href
  simp only [FunctionState.size_add, ← hsize] at hle hstep hset hcopy ⊢
  exact (runs_stepBeforeMember hx op hload (hstep hle) (hset (by omega)) (hcopy (by omega)) (by omega)
    hplace.1 hplace.2 (lt_above a c dest)).imp fun v T' ⟨hv, hbelow⟩ => ⟨hv, hkept.below hbelow⟩

theorem performs_stepAfterMember (hg : f.Changes load ({ · with a := above dest a c }) g)
    (op : StepOp) :
    x.Performs b (((g.add ⟨op.after, above dest a c + 1, above dest a c, 0, place⟩).add
        ⟨.dotSet, a, c, above dest a c, place⟩).add ⟨.copy, dest, above dest a c + 1, 0, place⟩) dest
      ((Change.stepAfter op).run x place (above dest a c) refer right) := by
  refine .of_ends fun hx hF P hP => ?_
  obtain ⟨-, hle⟩ := htarget.next hb hd hg
  obtain ⟨hF₃, hcopy⟩ := hF.add
  obtain ⟨hF₂, hset⟩ := hF₃.add
  obtain ⟨hF₁, hstep⟩ := hF₂.add
  refine htarget.changed hx hb hd rfl hg hF₁ hP fun q ref hsize hload hplace => ?_
  refine .of_runs fun T ⟨href, hkept⟩ => ?_
  obtain rfl : ref = .member q (T a) (T c) := href
  simp only [FunctionState.size_add, ← hsize] at hle hstep hset hcopy ⊢
  exact (runs_stepAfterMember hx op hload (hstep hle) (hset (by omega)) (hcopy (by omega)) (by omega)
    hplace.1 hplace.2 (lt_above a c dest)).imp fun v T' ⟨hv, hbelow⟩ => ⟨hv, hkept.below hbelow⟩

theorem performs_deleteMember (spare : Int)
    (hg : f.Changes load (fun _ => ⟨.delete, a, c, 0, place⟩) g) :
    x.Performs b (g.add ⟨.loadVoid, dest, 0, 0, place⟩) dest
      (Change.delete.run x place spare refer right) := by
  refine .of_ends fun hx hF P hP => ?_
  obtain ⟨-, hle⟩ := htarget.next hb hd hg
  obtain ⟨hF₁, hvoid⟩ := hF.add
  refine htarget.changed hx hb hd rfl hg hF₁ hP fun q ref hsize hdelete hplace => ?_
  refine .of_runs fun T ⟨href, hkept⟩ => ?_
  obtain rfl : ref = .member q (T a) (T c) := href
  simp only [FunctionState.size_add, ← hsize] at hle hvoid ⊢
  exact (runs_deleteMember hx hdelete (hvoid hle) (by omega) hplace.1 hplace.2).imp
    fun v T' ⟨hv, hbelow⟩ => ⟨hv, hkept.below hbelow⟩

end

end

end ScriptEngine
