import ScriptEngine.Proofs.Statement.Watch

/-!
# The code of statements does what they mean

`x.Follows N enter m d exit` compares a frame with a walk: from the stand `enter e` on, the frame
starts the pieces that `m` evaluates on `e`, and comes to the stand `exit a e'` if `m` ends with the
result `a` on the engine `e'`, after `d a` turns at least. If `m` fails, the frame fails in the same
way; if `m` is cut off, the frame goes on after `N` turns at least. Frames follow walks step by step
(`Follows.bind`) and loops turn by turn (`Follows.loop`), so the code of a plan follows its meaning
(`Stmt.follows`).
-/

namespace ScriptEngine

/-- Where a statement leaves a frame: behind it, at the end or the next turn of the innermost loop
around it, or outside of the frame. -/
def Signal.exit (behind out again : Nat) : Signal → Engine → Stand
  | .next => .at behind
  | .broke => .at out
  | .continued => .at again
  | .left v => .left v

/-! ## The pieces of a plan -/

/-- Pieces of a code start from an index on and in front of another. -/
structure Spans (code : Array Instruction) (leaves : List Piece) (a b : Nat) : Prop where
  le : a ≤ b
  inside : ∀ p ∈ leaves, a ≤ p.start ∧ p.start < b
  made : ∀ p ∈ leaves, p.phrase.Makes code p.start p.stop

theorem Spans.nil {code : Array Instruction} {a b : Nat} (h : a ≤ b) : Spans code [] a b :=
  ⟨h, nofun, nofun⟩

theorem Spans.append {code : Array Instruction} {xs ys : List Piece} {a m m' b : Nat}
    (hxs : Spans code xs a m) (hys : Spans code ys m' b) (hm : m ≤ m') :
    Spans code (xs ++ ys) a b := by
  have := hxs.le
  have := hys.le
  refine ⟨by omega, fun p hp => ?_, fun p hp => ?_⟩ <;>
    rcases List.mem_append.1 hp with hp | hp
  · have := hxs.inside p hp
    omega
  · have := hys.inside p hp
    omega
  · exact hxs.made p hp
  · exact hys.made p hp

theorem Spans.widen {code : Array Instruction} {xs : List Piece} {a b : Nat}
    (h : Spans code xs a b) : Spans code xs a (b + 1) :=
  ⟨Nat.le_succ_of_le h.le, fun p hp => ⟨(h.inside p hp).1, Nat.lt_succ_of_lt (h.inside p hp).2⟩,
    h.made⟩

section Spans

variable {code : Array Instruction} {a b : Nat} {piece : Option Piece}

theorem Piece.Laid.spans {p : Piece} (h : p.Laid code a b) : Spans code [p] a b := by
  have hlt := h.made.closed.1
  refine ⟨hlt.le, fun q hq => ?_, fun q hq => ?_⟩ <;> rw [List.mem_singleton.1 hq, h.start]
  · exact ⟨le_refl a, hlt⟩
  · exact h.stop ▸ h.made

theorem Piece.LaidIf.spans (h : Piece.LaidIf code a b piece) : Spans code piece.toList a b := by
  cases piece with
  | some p => exact Piece.Laid.spans h
  | none => exact .nil (le_of_eq h)

theorem Piece.Guards.spans {exit : Nat} (h : Piece.Guards code exit a b piece) :
    Spans code piece.toList a b := by
  cases piece with
  | some p =>
    obtain ⟨m, hp, -, rfl⟩ := h
    exact hp.spans.widen
  | none => exact .nil (le_of_eq h)

theorem Piece.Returns.spans (h : Piece.Returns code a b piece) : Spans code piece.toList a b := by
  cases piece with
  | some p =>
    obtain ⟨m, hp, -, rfl⟩ := h
    exact hp.spans.widen
  | none =>
    obtain ⟨-, rfl⟩ := h
    exact .nil (Nat.le_succ a)

end Spans

mutual

/-- The pieces of a plan start in its code. -/
theorem Stmt.Laid.spans {code : Array Instruction} : {t : Stmt Piece} → {B C a b : Nat} →
    t.Laid code B C a b → Spans code t.leaves a b
  | .empty _, _, _, _, _, h => .nil (le_of_eq h)
  | .expr _ _, _, _, _, _, h => Piece.Laid.spans h
  | .block _, _, _, _, _, h => Stmts.Laid.spans h
  | .ifThen _ _, _, _, _, _, ⟨m, htest, _, hbody⟩ =>
    htest.spans.append (Stmt.Laid.spans hbody) (Nat.le_succ m)
  | .ifElse _ _ _, _, _, _, _, ⟨m, k, htest, _, hbody, _, hother⟩ =>
    htest.spans.append ((Stmt.Laid.spans hbody).append (Stmt.Laid.spans hother) (Nat.le_succ k))
      (Nat.le_succ m)
  | .whileLoop _ _, _, _, _, _, ⟨m, _, htest, _, hbody, _, hb⟩ =>
    hb ▸ (htest.spans.append (Stmt.Laid.spans hbody) (Nat.le_succ m)).widen
  | .doLoop _ _ _, _, _, _, _, ⟨m, _, hbody, htest, _, hb⟩ =>
    hb ▸ ((Stmt.Laid.spans hbody).append htest.spans (le_refl m)).widen
  | .forLoop _ _ _ _, _, _, _, _,
      ⟨top, enter, back, _, hinit, htest, _, hstep, _, hbody, _, hb⟩ =>
    hb ▸ (hinit.spans.append (htest.spans.append (hstep.spans.append
      (Stmt.Laid.spans hbody) (Nat.le_succ back)) (Nat.le_succ enter)) (le_refl top)).widen
  | .leave .breaks _, _, _, a, _, ⟨_, hb⟩ => .nil (hb ▸ Nat.le_succ a)
  | .leave .continues _, _, _, a, _, ⟨_, hb⟩ => .nil (hb ▸ Nat.le_succ a)
  | .ret _ _, _, _, _, _, h => Piece.Returns.spans h

theorem Stmts.Laid.spans {code : Array Instruction} : {ts : Stmts Piece} → {B C a b : Nat} →
    ts.Laid code B C a b → Spans code ts.leaves a b
  | .nil, _, _, _, _, h => .nil (le_of_eq h)
  | .cons _ _, _, _, _, _, ⟨m, ht, hts⟩ =>
    (Stmt.Laid.spans ht).append (Stmts.Laid.spans hts) (le_refl m)

end

namespace Watch

variable {α β : Type} {x : Watch}

/-- A frame does what a walk does; see the head of the module. -/
def Follows (x : Watch) (N : Nat) (enter : Engine → Stand) (m : Walk Piece α) (d : α → Nat)
    (exit : α → Engine → Stand) : Prop :=
  ∀ e, x.frame.Sound (enter e) →
    match m e with
    | (trace, .done a e') => ∃ k, d a ≤ k ∧ x.after k (enter e) = (trace, exit a e')
    | (trace, .failed failure e') => ∃ k, x.after k (enter e) = (trace, .failed failure e')
    | (trace, .cut) => ∃ k pc e', N ≤ k ∧ x.after k (enter e) = (trace, .at pc e')

namespace Follows

variable {N N' : Nat} {enter : Engine → Stand} {m : Walk Piece α} {d d' : α → Nat}
  {exit mid : α → Engine → Stand}

theorem pure {a : α} (henter : enter = exit a) (hd : d a = 0) :
    x.Follows N enter (pure a) d exit :=
  fun _ _ => ⟨0, hd.le, by rw [henter]; rfl⟩

theorem mono (h : x.Follows N enter m d exit) (hN : N' ≤ N) (hd : ∀ a, d' a ≤ d a) :
    x.Follows N' enter m d' exit := by
  intro e he
  have hm := h e he
  rcases hme : m e with ⟨trace, ⟨a, e'⟩ | ⟨failure, e'⟩ | _⟩ <;> rw [hme] at hm
  · obtain ⟨k, hk, hafter⟩ := hm
    exact ⟨k, (hd a).trans hk, hafter⟩
  · exact hm
  · obtain ⟨k, pc, e', hk, hafter⟩ := hm
    exact ⟨k, pc, e', hN.trans hk, hafter⟩

theorem congr {exit' : α → Engine → Stand} (h : x.Follows N enter m d exit)
    (hexit : ∀ a, exit a = exit' a) : x.Follows N enter m d exit' := by
  rwa [← funext hexit]

/-- One walk behind another. -/
theorem bind (hx : x.Proper) {k : α → Walk Piece β} {c : α → β → Nat} {c' : β → Nat}
    {exit : β → Engine → Stand} {M : α → Nat} (hm : x.Follows N enter m d mid)
    (hk : ∀ a, x.Follows (M a) (mid a) (k a) (c a) exit) (hN : ∀ a, N ≤ d a + M a)
    (hc : ∀ a b, c' b ≤ d a + c a b) : x.Follows N enter (m >>= k) c' exit := by
  intro e he
  have hme := hm e he
  rw [Walk.bind_apply]
  rcases hma : m e with ⟨trace, ⟨a, e₁⟩ | ⟨failure, e₁⟩ | _⟩ <;> rw [hma] at hme
  · obtain ⟨j, hj, hafter⟩ := hme
    have hsound := hx.after he j
    rw [hafter] at hsound
    have hke := hk a e₁ hsound
    have hboth : ∀ i, x.after (j + i) (enter e) =
        (trace ++ (x.after i (mid a e₁)).1, (x.after i (mid a e₁)).2) := fun i => by
      rw [after_add, hafter]
    dsimp only
    rcases hka : k a e₁ with ⟨trace', ⟨b, e₂⟩ | ⟨failure, e₂⟩ | _⟩ <;> rw [hka] at hke
    · obtain ⟨i, hi, hafter'⟩ := hke
      exact ⟨j + i, (hc a b).trans (Nat.add_le_add hj hi), by rw [hboth, hafter']⟩
    · obtain ⟨i, hafter'⟩ := hke
      exact ⟨j + i, by rw [hboth, hafter']⟩
    · obtain ⟨i, pc, e', hi, hafter'⟩ := hke
      exact ⟨j + i, pc, e', (hN a).trans (Nat.add_le_add hj hi), by rw [hboth, hafter']⟩
  · exact hme
  · exact hme

/-- One walk behind another, however long they take. -/
theorem andThen (hx : x.Proper) {k : α → Walk Piece β} {exit : β → Engine → Stand}
    (hm : x.Follows N enter m d mid)
    (hk : ∀ a, x.Follows N (mid a) (k a) (fun _ => 0) exit) :
    x.Follows N enter (m >>= k) (fun _ => 0) exit :=
  hm.bind hx hk (fun _ => Nat.le_add_left ..) fun _ _ => Nat.zero_le _

/-- A turn of the machine in front of a walk that does not matter to it. -/
theorem led (hx : x.Proper) {enter' : Engine → Stand}
    (hturn : ∀ e, x.frame.Sound (enter e) → x.after 1 (enter e) = ([], enter' e))
    (hm : x.Follows N enter' m d exit) : x.Follows N enter m (fun a => d a + 1) exit := by
  have hunit : x.Follows N enter (Pure.pure () : Walk Piece Unit) (fun _ => 1) fun _ => enter' :=
    fun e he => ⟨1, le_refl 1, hturn e he⟩
  exact hunit.bind (k := fun _ => m) hx (fun _ => hm) (fun _ => Nat.le_add_left ..)
    fun _ _ => Nat.add_comm .. |>.le

/-- A walk in front of turns of the machine that do not matter to it. -/
theorem followed (hx : x.Proper) (hm : x.Follows N enter m d mid)
    (h : ∀ a, x.Follows N (mid a) (Pure.pure a : Walk Piece α) d' exit) :
    x.Follows N enter m d' exit := by
  have hbind := hm.bind hx (c := fun _ => d') h (fun _ => Nat.le_add_left ..)
    fun _ _ => Nat.le_add_left ..
  rwa [Walk.bind_pure] at hbind

/-- A loop, if each turn of it that leads to another one takes a turn of the machine. -/
theorem loop (hx : x.Proper) {a : Nat} {turn : Walk Piece (Option α)}
    (hturn : x.Follows N (.at a) turn (fun r => if r.isNone then 1 else 0) (·.elim (.at a) exit))
    {n : Nat} (hn : n ≤ N) : x.Follows n (.at a) (Walk.loop turn n) (fun _ => 0) exit := by
  induction n with
  | zero => exact fun e _ => ⟨0, a, e, le_refl 0, rfl⟩
  | succ n ih =>
    refine (hturn.mono hn fun _ => le_refl _).bind (c := fun _ _ => 0)
      (M := fun r => if r.isNone then n else n + 1) hx (fun r => ?_) (fun r => ?_) fun _ _ => Nat.zero_le _
    · cases r with
      | none => exact ih (Nat.le_of_succ_le hn)
      | some a => exact .pure (by rfl) (by rfl)
    · cases r with
      | none => exact (Nat.add_comm ..).le
      | some a => exact Nat.le_add_left ..

/-- A turn of a loop whose body is left at `next`, for another turn at `again`. -/
theorem turn (hx : x.Proper) {enterLoop goOn : Walk Piece Bool} {body : Walk Piece Signal}
    {a p next again out B C d₁ d₂ : Nat}
    (henter : x.Follows N (.at a) enterLoop (fun b => if b then d₁ else 0)
      fun b => .at (if b then p else out))
    (hbody : x.Follows N (.at p) body (fun _ => 0) (Signal.exit next out again))
    (hnext : x.Follows N (.at next) goOn (fun _ => d₂) fun b => .at (if b then a else out))
    (hagain : x.Follows N (.at again) goOn (fun _ => d₂) fun b => .at (if b then a else out))
    (hd : 1 ≤ d₁ + d₂) :
    x.Follows N (.at a) (Walk.turn enterLoop body goOn) (fun r => if r.isNone then 1 else 0)
      (·.elim (.at a) (Signal.exit out B C)) := by
  -- Behind a body that was completed or continued, the loop may go on.
  have hrest : ∀ n, x.Follows N (.at n) goOn (fun _ => d₂) (fun b => .at (if b then a else out)) →
      x.Follows N (.at n) (do return if ← goOn then none else some .next)
        (fun r => if r.isNone then d₂ else 0) (·.elim (.at a) (Signal.exit out B C)) := by
    intro n hgo
    refine hgo.bind hx (c := fun _ _ => 0) (fun b => ?_) (fun _ => Nat.le_add_left ..) fun _ r => ?_
    · cases b <;> exact .pure (by rfl) (by rfl)
    · split <;> omega
  refine henter.bind hx (c := fun b r => if r.isNone then (if b then d₂ else 1) else 0) (fun b => ?_)
    (fun _ => Nat.le_add_left ..) fun b r => by cases b <;> cases r <;> simp [hd]
  cases b with
  | false => exact .pure (by rfl) (by rfl)
  | true =>
    refine hbody.bind hx (c := fun _ r => if r.isNone then d₂ else 0) (fun signal => ?_)
      (fun _ => Nat.le_add_left ..) fun _ _ => Nat.le_add_left ..
    cases signal with
    | next => exact hrest next hnext
    | broke => exact .pure (by rfl) (by rfl)
    | continued => exact hrest again hagain
    | left v => exact .pure (by rfl) (by rfl)

end Follows

/-! ## Instructions -/

section

variable {n target : Nat}

theorem after_jump (h : Jumps x.frame.chunk.code n target) (hquiet : x.marks n = []) (e : Engine) :
    x.after 1 (.at n e) = ([], .at target e) := by
  obtain ⟨b, c, place, hi⟩ := h
  simp only [after, seen, hquiet, Frame.advance, hi, Script.tracing, Frame.step, Frame.jumpTo,
    Int.natCast_nonneg, if_true, Int.toNat_natCast]
  rfl

/-- The result of the expression evaluated last can be read where an instruction needs it. -/
theorem read_result (hx : x.Proper) {i : Instruction} (hi : x.frame.chunk.code[n]? = some i)
    (ha : i.op.registerOperands.1 = true) (hresult : i.a = resultRegister) {e : Engine}
    (he : x.frame.Sound (.at n e)) :
    x.frame.read resultRegister e = .ok (x.world.value e) e := by
  have hhas := (Frame.has_of_fits (hx.frame.wellFormed.fits n i hi)).1 ha
  rw [hresult] at hhas
  exact Frame.read_apply hx.frame hhas he.2.live

theorem after_jumpIf (hx : x.Proper) {wanted : Bool} (h : JumpsIf x.frame.chunk.code n wanted target)
    (hquiet : x.marks n = []) {e : Engine} (he : x.frame.Sound (.at n e)) :
    x.after 1 (.at n e) =
      ([], .at (if (x.world.value e).truthy = wanted then target else n + 1) e) := by
  obtain ⟨c, place, hi⟩ := h
  have hread := read_result hx hi (by cases wanted <;> rfl) rfl he
  have hstep : x.frame.step x.call
      ⟨if wanted then .jumpTrue else .jumpFalse, resultRegister, target, c, place⟩ e =
        .ok (if (x.world.value e).truthy = wanted then .jump target else .next) e := by
    cases wanted <;>
      simp only [Bool.false_eq_true, if_true, if_false, Frame.step, Frame.jumpIf, Script.bind_apply,
        hread, Frame.jumpTo, Int.natCast_nonneg, Int.toNat_natCast] <;>
      split <;> rfl
  simp only [after, seen, hquiet, Frame.advance, hi, Script.tracing, hstep]
  by_cases htruth : (x.world.value e).truthy = wanted
  · simp only [if_pos htruth]
    rfl
  · simp only [if_neg htruth]
    rfl

theorem after_ret (hx : x.Proper) {b c : Int} {place : Position}
    (hi : x.frame.chunk.code[n]? = some ⟨.ret, resultRegister, b, c, place⟩)
    (hquiet : x.marks n = []) {e : Engine} (he : x.frame.Sound (.at n e)) :
    x.after 1 (.at n e) = ([], .left (x.world.value e) e) := by
  have hread := read_result hx hi rfl rfl he
  simp only [after, seen, hquiet, Frame.advance, hi, Script.tracing, Frame.step, Script.bind_apply,
    hread]
  rfl

theorem after_retVoid {a b c : Int} {place : Position}
    (hi : x.frame.chunk.code[n]? = some ⟨.retVoid, a, b, c, place⟩)
    (hquiet : x.marks n = []) (e : Engine) : x.after 1 (.at n e) = ([], .left .void e) := by
  simp only [after, seen, hquiet, Frame.advance, hi, Script.tracing, Frame.step]
  rfl

end

/-! ## Pieces -/

/-- The pieces that start from an index up to another are these. -/
def Covers (x : Watch) (leaves : List Piece) (a b : Nat) : Prop :=
  ∀ n, a ≤ n → n < b → x.marks n = leaves.filter (·.start = n)

variable {a b : Nat}

/-- What is watched is divided among the parts of a plan; between them nothing starts. -/
theorem Covers.split {xs ys : List Piece} {m m' : Nat} (h : x.Covers (xs ++ ys) a b)
    (hxs : Spans x.frame.chunk.code xs a m) (hys : Spans x.frame.chunk.code ys m' b)
    (hm : m ≤ m') : x.Covers xs a m ∧ (∀ n, m ≤ n → n < m' → x.marks n = []) ∧ x.Covers ys m' b := by
  have hle := hxs.le
  have hle' := hys.le
  have hnone : ∀ (zs : List Piece) n, (∀ p ∈ zs, p.start ≠ n) → zs.filter (·.start = n) = [] := by
    intro zs n hzs
    exact List.filter_eq_nil_iff.2 fun p hp => by simpa using hzs p hp
  have hlow : ∀ n, m ≤ n → xs.filter (·.start = n) = [] := fun n hn =>
    hnone xs n fun p hp => by have := hxs.inside p hp; omega
  have hhigh : ∀ n, n < m' → ys.filter (·.start = n) = [] := fun n hn =>
    hnone ys n fun p hp => by have := hys.inside p hp; omega
  refine ⟨fun n ha hb => ?_, fun n ha hb => ?_, fun n ha hb => ?_⟩
  · rw [h n ha (by omega), List.filter_append, hhigh n (by omega), List.append_nil]
  · rw [h n (by omega) (by omega), List.filter_append, hlow n ha, hhigh n hb, List.append_nil]
  · rw [h n (by omega) hb, List.filter_append, hlow n (by omega), List.nil_append]

/-- Behind the last part of a plan nothing starts. -/
theorem Covers.init {xs : List Piece} {m : Nat} (h : x.Covers xs a (m + 1))
    (hxs : Spans x.frame.chunk.code xs a m) : x.Covers xs a m ∧ x.marks m = [] := by
  rw [← List.append_nil xs] at h
  obtain ⟨hcovers, hquiet, -⟩ := h.split hxs (.nil (le_refl _)) (Nat.le_succ m)
  exact ⟨hcovers, hquiet m (le_refl m) (Nat.lt_succ_self m)⟩

/-- A piece is evaluated. -/
theorem follows_visit {N : Nat} {p : Piece} (hp : p.Laid x.frame.chunk.code a b)
    (hcovers : x.Covers [p] a b) :
    x.Follows N (.at a) (x.world.visit p) (fun _ => 1) fun _ => .at b := by
  obtain ⟨rfl, rfl, hmade⟩ := hp
  obtain ⟨hlt, hclosed⟩ := hmade.closed
  intro e _
  have hseen : x.seen (.at p.start e) = [(p, e)] := by
    simp [seen, hcovers p.start (le_refl _) hlt]
  have hquiet : ∀ n, p.start < n → n < p.stop → x.marks n = [] := by
    intro n hn hstop
    simp [hcovers n hn.le hstop, hn.ne]
  have hcross := crosses hclosed hquiet (p.stop - p.start + 1) (le_refl _) hlt (Nat.lt_succ_self _) e
  rw [hseen] at hcross
  simp only [World.visit, world, Script.bind_apply]
  rcases hrun : (x.frame.upTo p.stop).run x.call (p.stop - p.start + 1) p.start e with
    ⟨v, e'⟩ | ⟨failure, e'⟩ <;> rw [hrun] at hcross <;> obtain ⟨k, hk⟩ := hcross
  · exact ⟨k + 1, Nat.le_add_left .., hk⟩
  · exact ⟨k + 1, hk⟩

variable {N m target out : Nat} {p : Piece}

/-- A condition is evaluated, with a jump on its truth behind it. -/
theorem follows_test (hx : x.Proper) {wanted : Bool} (hp : p.Laid x.frame.chunk.code a m)
    (hjump : JumpsIf x.frame.chunk.code m wanted target) (hcovers : x.Covers [p] a m)
    (hquiet : x.marks m = []) : x.Follows N (.at a) (x.world.test p) (fun _ => 1)
      fun v => .at (if v = wanted then target else m + 1) := by
  have htruth : x.Follows N (.at m) (do return (← x.world.last).truthy) (fun _ => 1)
      fun v => .at (if v = wanted then target else m + 1) :=
    fun e he => ⟨1, le_refl 1, after_jumpIf hx hjump hquiet he⟩
  exact (follows_visit hp hcovers).bind hx (fun _ => htruth) (fun _ => Nat.le_add_left ..)
    fun _ _ => Nat.le_add_left ..

theorem follows_visitIf {piece : Option Piece} (hp : Piece.LaidIf x.frame.chunk.code a b piece)
    (hcovers : x.Covers piece.toList a b) :
    x.Follows N (.at a) (x.world.visitIf piece) (fun _ => 0) fun _ => .at b := by
  cases piece with
  | some p => exact (follows_visit hp hcovers).mono (le_refl _) fun _ => Nat.zero_le _
  | none => exact .pure (congrArg Stand.at hp) (by rfl)

theorem follows_guard (hx : x.Proper) {piece : Option Piece}
    (hp : Piece.Guards x.frame.chunk.code out a b piece) (hcovers : x.Covers piece.toList a b) :
    x.Follows N (.at a) (x.world.testIf piece) (fun _ => 0) fun v => .at (if v then b else out) := by
  cases piece with
  | some p =>
    obtain ⟨m, hp, hjump, rfl⟩ := hp
    obtain ⟨hcovers, hquiet⟩ := Covers.init hcovers hp.spans
    refine ((follows_test hx hp hjump hcovers hquiet).mono (le_refl _) fun _ => Nat.zero_le _).congr
      fun v => ?_
    cases v <;> rfl
  | none => exact .pure (congrArg Stand.at hp) (by rfl)

/-- A jump in front of a walk. -/
theorem Follows.jump (hx : x.Proper) {α : Type} {w : Walk Piece α} {d : α → Nat}
    {exit : α → Engine → Stand} (hjump : Jumps x.frame.chunk.code m target)
    (hquiet : x.marks m = []) (h : x.Follows N (.at target) w d exit) :
    x.Follows N (.at m) w (fun a => d a + 1) exit :=
  h.led hx fun e _ => after_jump hjump hquiet e

/-! ## Loops -/

section Loops

variable {n k B C : Nat} {body : Walk Piece Signal}

theorem follows_while (hx : x.Proper) (hp : p.Laid x.frame.chunk.code a m)
    (hexit : JumpsIf x.frame.chunk.code m false (k + 1)) (hback : Jumps x.frame.chunk.code k a)
    (hcovers : x.Covers [p] a m) (hquiet : x.marks m = []) (hquiet' : x.marks k = [])
    (hbody : x.Follows n (.at (m + 1)) body (fun _ => 0) (Signal.exit k (k + 1) a)) :
    x.Follows n (.at a) (Walk.loop (.turn (x.world.test p) body (return true)) n) (fun _ => 0)
      (Signal.exit (k + 1) B C) := by
  have htest : x.Follows n (.at a) (x.world.test p) (fun b => if b then 1 else 0)
      fun b => .at (if b then m + 1 else k + 1) := by
    refine ((follows_test hx hp hexit hcovers hquiet).mono (le_refl _) fun b => ?_).congr fun b => ?_
    · cases b <;> decide
    · cases b <;> rfl
  have htop : x.Follows n (.at a) (return true) (fun _ => 0) fun b => .at (if b then a else k + 1) :=
    .pure rfl rfl
  have hnext := (Follows.jump hx hback hquiet' htop).mono (le_refl n) fun _ => Nat.zero_le _
  exact (Follows.turn hx htest hbody hnext htop (le_refl 1)).loop hx (le_refl n)

theorem follows_do (hx : x.Proper) (hp : p.Laid x.frame.chunk.code m k)
    (hback : JumpsIf x.frame.chunk.code k true a) (hcovers : x.Covers [p] m k)
    (hquiet : x.marks k = [])
    (hbody : x.Follows n (.at a) body (fun _ => 0) (Signal.exit m (k + 1) m)) :
    x.Follows n (.at a) (Walk.loop (.turn (return true) body (x.world.test p)) n) (fun _ => 0)
      (Signal.exit (k + 1) B C) := by
  have htest : x.Follows n (.at m) (x.world.test p) (fun _ => 1)
      fun b => .at (if b then a else k + 1) :=
    (follows_test hx hp hback hcovers hquiet).congr fun b => by cases b <;> rfl
  have henter : x.Follows n (.at a) (return true) (fun b => if b then 0 else 0)
      fun b => .at (if b then a else k + 1) := .pure rfl rfl
  exact (Follows.turn hx henter hbody htest htest (le_refl 1)).loop hx (le_refl n)

theorem follows_for (hx : x.Proper) {test step : Option Piece} {top enter back : Nat}
    (htest : Piece.Guards x.frame.chunk.code (k + 1) top enter test)
    (henter : Jumps x.frame.chunk.code enter (back + 1))
    (hstep : Piece.LaidIf x.frame.chunk.code (enter + 1) back step)
    (hback : Jumps x.frame.chunk.code back top) (hagain : Jumps x.frame.chunk.code k (enter + 1))
    (htestCovers : x.Covers test.toList top enter) (hquiet : x.marks enter = [])
    (hstepCovers : x.Covers step.toList (enter + 1) back) (hquiet' : x.marks back = [])
    (hquiet'' : x.marks k = [])
    (hbody : x.Follows n (.at (back + 1)) body (fun _ => 0) (Signal.exit k (k + 1) (enter + 1))) :
    x.Follows n (.at top)
      (Walk.loop (.turn (x.world.testIf test) body (do x.world.visitIf step; return true)) n)
      (fun _ => 0) (Signal.exit (k + 1) B C) := by
  have hguard : x.Follows n (.at top) (x.world.testIf test) (fun b => if b then 1 else 0)
      fun b => .at (if b then back + 1 else k + 1) := by
    refine (follows_guard hx htest htestCovers).followed hx fun b => ?_
    cases b with
    | true =>
      refine (Follows.jump hx henter hquiet (d := fun _ => 0) (.pure (by rfl) rfl)).mono (le_refl n)
        fun b => ?_
      cases b <;> decide
    | false => exact .pure (by rfl) (by rfl)
  have hresume : x.Follows n (.at (enter + 1)) (do x.world.visitIf step; return true) (fun _ => 0)
      fun b => .at (if b then top else k + 1) := by
    refine (follows_visitIf hstep hstepCovers).andThen hx fun _ => ?_
    exact (Follows.jump hx hback hquiet' (d := fun _ => 0) (.pure (by rfl) rfl)).mono (le_refl n)
      fun _ => Nat.zero_le _
  have hnext := (Follows.jump hx hagain hquiet'' hresume).mono (le_refl n) fun _ => Nat.zero_le _
  exact (Follows.turn hx hguard hbody hnext hresume (le_refl 1)).loop hx (le_refl n)

end Loops

end Watch

open Watch in
mutual

/-- The code of a plan does what the plan means. -/
theorem Stmt.follows {x : Watch} (hx : x.Proper) (n : Nat) : (t : Stmt Piece) →
    {B C a b : Nat} → t.Laid x.frame.chunk.code B C a b → x.Covers t.leaves a b →
    x.Follows n (.at a) (t.exec x.world n) (fun _ => 0) (Signal.exit b B C)
  | .empty _, _, _, _, _, h, _ => .pure (congrArg Stand.at h) (by rfl)
  | .expr _ _, _, _, _, _, h, hcovers =>
    (follows_visit h hcovers).andThen hx fun _ => .pure (by rfl) (by rfl)
  | .block body, _, _, _, _, h, hcovers => Stmts.follows hx n body h hcovers
  | .ifThen test body, _, _, _, _, ⟨m, htest, hjump, hbody⟩, hcovers => by
    obtain ⟨htestCovers, hquiet, hbodyCovers⟩ :=
      hcovers.split htest.spans hbody.spans (Nat.le_succ m)
    refine (follows_test hx htest hjump htestCovers (hquiet m (le_refl m) (Nat.lt_succ_self m))).andThen
      hx fun v => ?_
    cases v with
    | true => exact Stmt.follows hx n body hbody hbodyCovers
    | false => exact .pure (by rfl) (by rfl)
  | .ifElse test body other, _, _, _, _, ⟨m, k, htest, hjump, hbody, hexit, hother⟩, hcovers => by
    obtain ⟨htestCovers, hquiet, hcovers⟩ := hcovers.split htest.spans
      (hbody.spans.append hother.spans (Nat.le_succ k)) (Nat.le_succ m)
    obtain ⟨hbodyCovers, hquiet', hotherCovers⟩ :=
      hcovers.split hbody.spans hother.spans (Nat.le_succ k)
    refine (follows_test hx htest hjump htestCovers (hquiet m (le_refl m) (Nat.lt_succ_self m))).andThen
      hx fun v => ?_
    cases v with
    | true =>
      refine (Stmt.follows hx n body hbody hbodyCovers).followed hx fun signal => ?_
      cases signal with
      | next =>
        exact (Follows.jump hx hexit (hquiet' k (le_refl k) (Nat.lt_succ_self k)) (d := fun _ => 0)
          (.pure (by rfl) rfl)).mono (le_refl n) fun _ => Nat.zero_le _
      | _ => exact .pure (by rfl) (by rfl)
    | false => exact Stmt.follows hx n other hother hotherCovers
  | .whileLoop test body, _, _, _, _, ⟨m, k, htest, hexit, hbody, hback, hb⟩, hcovers => by
    subst hb
    obtain ⟨hcovers, hquiet'⟩ :=
      Covers.init hcovers (htest.spans.append hbody.spans (Nat.le_succ m))
    obtain ⟨htestCovers, hquiet, hbodyCovers⟩ :=
      Covers.split hcovers htest.spans hbody.spans (Nat.le_succ m)
    exact follows_while hx htest hexit hback htestCovers (hquiet m (le_refl m) (Nat.lt_succ_self m))
      hquiet' (Stmt.follows hx n body hbody hbodyCovers)
  | .doLoop body test _, _, _, _, _, ⟨m, k, hbody, htest, hback, hb⟩, hcovers => by
    subst hb
    obtain ⟨hcovers, hquiet⟩ := Covers.init hcovers (hbody.spans.append htest.spans (le_refl m))
    obtain ⟨hbodyCovers, -, htestCovers⟩ := hcovers.split hbody.spans htest.spans (le_refl m)
    exact follows_do hx htest hback htestCovers hquiet (Stmt.follows hx n body hbody hbodyCovers)
  | .forLoop init test step body, _, _, _, _,
      ⟨top, enter, back, k, hinit, htest, henter, hstep, hback, hbody, hagain, hb⟩, hcovers => by
    subst hb
    have hstepSpans := hstep.spans.append hbody.spans (Nat.le_succ back)
    have htestSpans := htest.spans.append hstepSpans (Nat.le_succ enter)
    obtain ⟨hcovers, hquiet''⟩ := Covers.init hcovers (hinit.spans.append htestSpans (le_refl top))
    obtain ⟨hinitCovers, -, hcovers⟩ := hcovers.split hinit.spans htestSpans (le_refl top)
    obtain ⟨htestCovers, hquiet, hcovers⟩ :=
      hcovers.split htest.spans hstepSpans (Nat.le_succ enter)
    obtain ⟨hstepCovers, hquiet', hbodyCovers⟩ :=
      hcovers.split hstep.spans hbody.spans (Nat.le_succ back)
    refine (follows_visitIf hinit hinitCovers).andThen hx fun _ => ?_
    exact follows_for hx htest henter hstep hback hagain htestCovers
      (hquiet enter (le_refl _) (Nat.lt_succ_self _)) hstepCovers
      (hquiet' back (le_refl _) (Nat.lt_succ_self _)) hquiet''
      (Stmt.follows hx n body hbody hbodyCovers)
  | .leave .breaks _, _, _, a, _, ⟨hjump, hb⟩, hcovers => by
    exact (Follows.jump hx hjump (hcovers a (le_refl a) (hb ▸ Nat.lt_succ_self a)) (d := fun _ => 0)
      (.pure (by rfl) rfl)).mono (le_refl n) fun _ => Nat.zero_le _
  | .leave .continues _, _, _, a, _, ⟨hjump, hb⟩, hcovers => by
    exact (Follows.jump hx hjump (hcovers a (le_refl a) (hb ▸ Nat.lt_succ_self a)) (d := fun _ => 0)
      (.pure (by rfl) rfl)).mono (le_refl n) fun _ => Nat.zero_le _
  | .ret none _, _, _, a, _, ⟨⟨_, _, _, _, hi⟩, hb⟩, hcovers => fun e _ =>
    ⟨1, Nat.zero_le _, after_retVoid hi (hcovers a (le_refl a) (hb ▸ Nat.lt_succ_self a)) e⟩
  | .ret (some p) _, _, _, _, _, ⟨m, hp, ⟨_, _, _, hi⟩, hb⟩, hcovers => by
    subst hb
    obtain ⟨hcovers, hquiet⟩ := Covers.init hcovers hp.spans
    refine (follows_visit hp hcovers).andThen hx fun _ => ?_
    exact fun e he => ⟨1, Nat.zero_le _, after_ret hx hi hquiet he⟩

/-- The code of plans one behind the other does what they mean. -/
theorem Stmts.follows {x : Watch} (hx : x.Proper) (n : Nat) : (ts : Stmts Piece) →
    {B C a b : Nat} → ts.Laid x.frame.chunk.code B C a b → x.Covers ts.leaves a b →
    x.Follows n (.at a) (ts.exec x.world n) (fun _ => 0) (Signal.exit b B C)
  | .nil, _, _, _, _, h, _ => .pure (congrArg Stand.at h) (by rfl)
  | .cons t ts, _, _, _, _, ⟨m, ht, hts⟩, hcovers => by
    obtain ⟨hcovers, -, hcovers'⟩ := hcovers.split ht.spans hts.spans (le_refl m)
    refine (Stmt.follows hx n t ht hcovers).andThen hx fun signal => ?_
    cases signal with
    | next => exact Stmts.follows hx n ts hts hcovers'
    | _ => exact .pure (by rfl) (by rfl)

end

end ScriptEngine
