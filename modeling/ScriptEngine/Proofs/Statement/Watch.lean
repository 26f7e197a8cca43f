import ScriptEngine.Proofs.Expression.Runs
import ScriptEngine.Proofs.Statement.Layout

/-!
# Watching a frame

A watch follows a run of a frame turn by turn and notes which pieces of its code are started, each
with the engine at that moment (`Watch.after`). What it sees is the run of the frame
(`Watch.run_eq`).

The world of a watch says what the pieces do: a piece does what the frame does if its code ends
behind the piece. Since control enters and leaves the code of a phrase at its two ends, the frame
itself goes through a piece in the same way, and starts no other one (`Watch.crosses`).
-/

namespace ScriptEngine

/-! ## Turns -/

/-- Where a run of a frame is: in front of an instruction, or at its end. -/
inductive Stand where
  | at (pc : Nat) (e : Engine)
  | left (v : Value) (e : Engine)
  | failed (failure : Failure) (e : Engine)

/-- The end of a run without more fuel. -/
def Stand.outcome : Stand → Outcome Value
  | .at _ e => .error .exhausted e
  | .left v e => .ok v e
  | .failed failure e => .error failure e

namespace Frame

/-- One turn of the machine. -/
def advance (call : Invoke) (f : Frame) : Stand → Stand
  | .at pc e =>
    match f.chunk.code[pc]? with
    | none => .left .void e
    | some i =>
      match Script.tracing i.position (f.step call i) e with
      | .ok .next e' => .at (pc + 1) e'
      | .ok (.jump target) e' => .at target e'
      | .ok (.leave v) e' => .left v e'
      | .error failure e' => .failed failure e'
  | .left v e => .left v e
  | .failed failure e => .failed failure e

/-- The rest of a run of a frame. -/
def rest (call : Invoke) (f : Frame) (fuel : Nat) : Stand → Outcome Value
  | .at pc e => f.run call fuel pc e
  | .left v e => .ok v e
  | .failed failure e => .error failure e

theorem rest_succ (call : Invoke) (f : Frame) (fuel : Nat) (st : Stand) :
    f.rest call (fuel + 1) st = f.rest call fuel (f.advance call st) := by
  cases st with
  | «at» pc e =>
    rcases hi : f.chunk.code[pc]? with _ | i
    · simp only [rest, advance, hi, run]
      rfl
    · simp only [rest, advance, hi, run_succ hi]
      rcases Script.tracing i.position (f.step call i) e with ⟨_ | _ | _, e'⟩ | ⟨x, e'⟩ <;> rfl
  | left v e => rfl
  | failed failure e => rfl

/-- A frame can go on from where it stands. -/
def Sound (f : Frame) : Stand → Prop
  | .at pc e => e.heap.Guarded none ∧ f.Ready pc e
  | .left _ _ | .failed _ _ => True

theorem Sound.advance {call : Invoke} {f : Frame} {st : Stand} (h : f.Sound st)
    (hf : f.Proper none) (hcall : call.Calm none) : f.Sound (f.advance call st) := by
  cases st with
  | «at» pc e =>
    rcases hi : f.chunk.code[pc]? with _ | i
    · simp only [Frame.advance, hi]
      trivial
    · obtain ⟨hallowed, -⟩ := (tame_step hf hcall hi).tracing i.position e h.1 h.2
      simp only [Frame.advance, hi]
      rcases hstep : Script.tracing i.position (f.step call i) e with ⟨flow, e'⟩ | ⟨x, e'⟩ <;>
        rw [hstep] at hallowed
      · have hflow := hallowed.result flow e' rfl
        cases flow with
        | next => exact ⟨hallowed.guarded, hflow⟩
        | jump target => exact ⟨hallowed.guarded, hflow⟩
        | leave v => trivial
      · trivial
  | left v e => trivial
  | failed failure e => trivial

end Frame

/-! ## Watches -/

/-- A frame that is watched for the start of pieces of its code. -/
structure Watch where
  frame : Frame
  call : Invoke
  pieces : List Piece

namespace Watch

variable (x : Watch)

/-- The pieces that start at an index. -/
def marks (n : Nat) : List Piece :=
  x.pieces.filter (·.start = n)

/-- The pieces that are started in the next turn. -/
def seen : Stand → List (Piece × Engine)
  | .at pc e => (x.marks pc).map (·, e)
  | .left _ _ | .failed _ _ => []

/-- The pieces that are started in a number of turns, and where the frame is then. -/
def after : Nat → Stand → List (Piece × Engine) × Stand
  | 0, st => ([], st)
  | k + 1, st =>
    let (trace, st') := after k (x.frame.advance x.call st)
    (x.seen st ++ trace, st')

theorem after_succ (k : Nat) (st : Stand) : x.after (k + 1) st =
    (x.seen st ++ (x.after k (x.frame.advance x.call st)).1,
      (x.after k (x.frame.advance x.call st)).2) := rfl

theorem after_add (j k : Nat) (st : Stand) : x.after (j + k) st =
    ((x.after j st).1 ++ (x.after k (x.after j st).2).1, (x.after k (x.after j st).2).2) := by
  induction j generalizing st with
  | zero => simp [after]
  | succ j ih => simp only [Nat.succ_add, after, ih, List.append_assoc]

/-- What is watched is the run of the frame. -/
theorem run_eq (k pc : Nat) (e : Engine) :
    x.frame.run x.call k pc e = (x.after k (.at pc e)).2.outcome := by
  have hrest : ∀ st, x.frame.rest x.call k st = (x.after k st).2.outcome := by
    induction k with
    | zero => rintro (⟨pc, e⟩ | ⟨v, e⟩ | ⟨failure, e⟩) <;> rfl
    | succ k ih => exact fun st => (x.frame.rest_succ x.call k st).trans (ih _)
  exact hrest (.at pc e)

/-- A watch of compiled code. -/
structure Proper : Prop where
  frame : x.frame.Proper none
  call : x.call.Calm none

variable {x}

theorem Proper.after (hx : x.Proper) {st : Stand} (h : x.frame.Sound st) (k : Nat) :
    x.frame.Sound (x.after k st).2 := by
  induction k generalizing st with
  | zero => exact h
  | succ k ih => exact ih (h.advance hx.frame hx.call)

end Watch

/-! ## Pieces -/

/-- The frame, with its code cut off at an index. -/
def Frame.upTo (f : Frame) (stop : Nat) : Frame :=
  { f with chunk := { f.chunk with code := f.chunk.code.take stop } }

namespace Frame

variable {f : Frame} {stop : Nat}

theorem range_upTo (f : Frame) (stop : Nat) (first behind : Int) :
    (f.upTo stop).range first behind = f.range first behind := by
  have hfrom : ∀ count before first,
      (f.upTo stop).rangeFrom before first count = f.rangeFrom before first count := by
    intro count
    induction count with
    | zero => exact fun _ _ => rfl
    | succ count ih =>
      intro before first
      simp only [rangeFrom, ih]
      rfl
  exact hfrom _ _ _

theorem step_upTo (call : Invoke) (f : Frame) (stop : Nat) (i : Instruction) :
    (f.upTo stop).step call i = f.step call i := by
  obtain ⟨op, a, b, c, place⟩ := i
  cases op with
  | call | makeArray | makeDict | makeFunc =>
    simp only [step, perform, makeDict, makeFunction, range_upTo]
    rfl
  | _ => rfl

theorem advance_upTo (call : Invoke) {pc : Nat} (hpc : pc < stop) (e : Engine) :
    (f.upTo stop).advance call (.at pc e) = f.advance call (.at pc e) := by
  have hcode : (f.upTo stop).chunk.code[pc]? = f.chunk.code[pc]? := by
    simp only [upTo, Array.take_eq_extract, Array.getElem?_extract, Nat.sub_zero, Nat.zero_add]
    by_cases hsize : pc < f.chunk.code.size
    · rw [if_pos (by omega)]
    · rw [if_neg (by omega), Array.getElem?_eq_none (by omega)]
  simp only [advance, hcode, step_upTo]

theorem run_upTo_stop (call : Invoke) (fuel : Nat) (e : Engine) :
    (f.upTo stop).run call (fuel + 1) stop e = .ok .void e := by
  have hcode : (f.upTo stop).chunk.code[stop]? = none := by
    simp [upTo]
  simp only [run, hcode]
  rfl

/-- How a frame goes on after an instruction. -/
theorem flow_of_step {call : Invoke} {i : Instruction} {flow : Flow} {e e' : Engine}
    (h : f.step call i e = .ok flow e') :
    flow = .next ∨ (∃ m : Nat, flow = .jump m ∧ i.target? = some (m : Int)) ∨
      i.op = .ret ∨ i.op = .retVoid := by
  have hjumpTo : ∀ target e₁, jumpTo target e₁ = .ok flow e' →
      ∃ m : Nat, flow = .jump m ∧ target = m := by
    intro target e₁ hto
    unfold jumpTo at hto
    split at hto
    · rename_i hpos
      cases hto
      exact ⟨target.toNat, rfl, (Int.toNat_of_nonneg hpos).symm⟩
    · cases hto
  have hjumpIf : ∀ wanted, f.jumpIf i wanted e = .ok flow e' →
      flow = .next ∨ ∃ m : Nat, flow = .jump m ∧ i.b = m := by
    intro wanted hif
    rw [jumpIf, Script.bind_apply] at hif
    split at hif
    · split at hif
      · exact .inr (hjumpTo _ _ hif)
      · cases hif
        exact .inl rfl
    · cases hif
  by_cases hmoves : i.op.moves = false
  · rw [step_eq_perform hmoves, Script.bind_apply] at h
    split at h <;> cases h
    exact .inl rfl
  · obtain ⟨op, a, b, c, place⟩ := i
    cases op with
    | jump =>
      obtain ⟨m, hflow, hm⟩ := hjumpTo a e h
      exact .inr (.inl ⟨m, hflow, congrArg some hm⟩)
    | jumpFalse =>
      rcases hjumpIf false h with hnext | ⟨m, hflow, hm⟩
      · exact .inl hnext
      · exact .inr (.inl ⟨m, hflow, congrArg some hm⟩)
    | jumpTrue =>
      rcases hjumpIf true h with hnext | ⟨m, hflow, hm⟩
      · exact .inl hnext
      · exact .inr (.inl ⟨m, hflow, congrArg some hm⟩)
    | ret => exact .inr (.inr (.inl rfl))
    | retVoid => exact .inr (.inr (.inr rfl))
    | _ => exact absurd rfl hmoves

/-- An instruction of a segment fails, or leads forward and not beyond the end. -/
theorem advance_of_stays {call : Invoke} {pc : Nat} {i : Instruction} {e : Engine}
    (hi : f.chunk.code[pc]? = some i) (hstays : i.Stays pc stop) (hpc : pc < stop) :
    (∃ failure e', f.advance call (.at pc e) = .failed failure e') ∨
      ∃ m e', f.advance call (.at pc e) = .at m e' ∧ pc < m ∧ m ≤ stop := by
  have hflow : ∀ flow e', f.step call i e = .ok flow e' →
      flow = .next ∨ ∃ m : Nat, flow = .jump m ∧ pc < m ∧ m ≤ stop := by
    intro flow e' hstep
    rcases flow_of_step hstep with hnext | ⟨m, hjump, htarget⟩ | hret
    · exact .inl hnext
    · obtain ⟨m', hm, hlt, hle⟩ := hstays.target _ htarget
      obtain rfl : m = m' := Int.ofNat.inj hm
      exact .inr ⟨m, hjump, hlt, hle⟩
    · exact absurd hret (not_or.2 hstays.goesOn)
  simp only [advance, hi, Script.tracing]
  rcases hstep : f.step call i e with ⟨flow, e'⟩ | ⟨_ | _, e'⟩
  · rcases hflow flow e' hstep with rfl | ⟨m, rfl, hlt, hle⟩
    · exact .inr ⟨pc + 1, e', rfl, Nat.lt_succ_self pc, hpc⟩
    · exact .inr ⟨m, e', rfl, hlt, hle⟩
  · exact .inl ⟨_, e', rfl⟩
  · exact .inl ⟨_, e', rfl⟩

end Frame

namespace Watch

/-- What the pieces of the code do, each alone. -/
def world (x : Watch) : World Piece where
  eval p := do
    let _ ← (x.frame.upTo p.stop).run x.call (p.stop - p.start + 1) p.start
  value e := x.frame.contents e resultRegister

variable {x : Watch}

/-- The frame goes through the code of a piece as if it ended there. -/
theorem crosses {start stop : Nat} (hclosed : ∀ n, start ≤ n → n < stop →
      ∃ i, x.frame.chunk.code[n]? = some i ∧ i.Stays n stop)
    (hquiet : ∀ n, start < n → n < stop → x.marks n = [])
    (fuel : Nat) {pc : Nat} (hstart : start ≤ pc) (hpc : pc < stop) (hfuel : stop - pc < fuel)
    (e : Engine) :
    match (x.frame.upTo stop).run x.call fuel pc e with
    | .ok _ e' => ∃ k, x.after (k + 1) (.at pc e) = (x.seen (.at pc e), .at stop e')
    | .error failure e' =>
      ∃ k, x.after (k + 1) (.at pc e) = (x.seen (.at pc e), .failed failure e') := by
  induction fuel generalizing pc e with
  | zero => omega
  | succ fuel ih =>
    obtain ⟨i, hi, hstays⟩ := hclosed pc hstart hpc
    have hrun : (x.frame.upTo stop).run x.call (fuel + 1) pc e =
        (x.frame.upTo stop).rest x.call fuel (x.frame.advance x.call (.at pc e)) := by
      rw [← Frame.advance_upTo x.call hpc]
      exact Frame.rest_succ x.call _ fuel (.at pc e)
    rcases Frame.advance_of_stays (e := e) hi hstays hpc with ⟨failure, e', hfail⟩ | ⟨m, e', hgo, hlt, hle⟩
    · rw [hrun, hfail]
      exact ⟨0, by simp [after, hfail]⟩
    · rw [hrun, hgo]
      rcases Nat.lt_or_eq_of_le hle with hm | rfl
      · have hrest := ih (hstart.trans hlt.le) hm (by omega) e'
        have hsilent : x.seen (.at m e') = [] := by
          simp only [seen, hquiet m (by omega) hm, List.map_nil]
        simp only [Frame.rest]
        rw [hsilent] at hrest
        rcases hend : (x.frame.upTo stop).run x.call fuel m e' with ⟨v, e''⟩ | ⟨failure, e''⟩ <;>
          rw [hend] at hrest <;> obtain ⟨k, hk⟩ := hrest
        · exact ⟨k + 1, by rw [after_succ, hgo, hk, List.append_nil]⟩
        · exact ⟨k + 1, by rw [after_succ, hgo, hk, List.append_nil]⟩
      · obtain ⟨fuel, rfl⟩ : ∃ j, fuel = j + 1 := ⟨fuel - 1, by omega⟩
        simp only [Frame.rest, Frame.run_upTo_stop]
        exact ⟨0, by simp [after, hgo]⟩

end Watch

end ScriptEngine
