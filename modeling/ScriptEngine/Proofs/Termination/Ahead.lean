import ScriptEngine.Proofs.Reading.Trace

/-!
# The tokens ahead of a compilation

`Lexer.ahead` counts the tokens that a lexer still has to give: one for the slot, and those in its
text. The end counts for none, so reading it again and again costs nothing. Reading a token takes its
weight away (`next_spends`), and giving it back returns no more than that (`ahead_pushBack_le`).

`Paced i k m x y` is about a step of a compilation in two versions, wherever at most `i` tokens are
ahead: both end alike, neither of them for want of fuel, and at most `k` tokens are ahead of what
follows. Of these, `m` counts what the result has in hand. A step is `Aloof` if it leaves the lexer
alone and does not run out of fuel, so that its second version can be the first.
-/

namespace ScriptEngine

open Compile (weight)

namespace Lexer

variable {l l' : Lexer} {t : Token}

/-- How many tokens a lexer cuts off the rest of its text, up to what it refuses. -/
def supply (l : Lexer) : Nat :=
  match l.fetch with
  | (.ok t, after) => if after.rest.length < l.rest.length then weight t + after.supply else 0
  | (.error _, _) => 0
termination_by l.rest.length

/-- How many tokens are ahead of a lexer. -/
def ahead (l : Lexer) : Nat :=
  l.supply + (l.pushed.map weight).getD 0

theorem supply_of_fetch (h : l.fetch = (.ok t, l')) :
    l.supply = if l'.rest.length < l.rest.length then weight t + l'.supply else 0 := by
  rw [supply, h]

/-- What is in the slot has no part in cutting. -/
theorem fetch_pushed (l : Lexer) (slot : Option Token) :
    { l with pushed := slot }.fetch = (l.fetch.1, { l.fetch.2 with pushed := slot }) := by
  unfold fetch
  dsimp only
  split
  · rfl
  · split
    · rfl
    · rfl
    · have hkind : kindOf { l with pushed := slot } = kindOf l := rfl
      rw [hkind]
      split <;> rfl

theorem supply_pushed (l : Lexer) (slot : Option Token) :
    { l with pushed := slot }.supply = l.supply := by
  fun_induction supply l with
  | case1 l t after hfetch hshorter ih =>
    have hfetch' := fetch_pushed l slot
    rw [hfetch] at hfetch'
    rw [supply_of_fetch hfetch', if_pos hshorter, ih]
  | case2 l t after hfetch hshorter =>
    have hfetch' := fetch_pushed l slot
    rw [hfetch] at hfetch'
    rw [supply_of_fetch hfetch', if_neg hshorter]
  | case3 l e after hfetch =>
    have hfetch' := fetch_pushed l slot
    rw [hfetch] at hfetch'
    rw [supply, hfetch']

/-- A token that takes no text is the end, and the lexer is finished behind it. -/
theorem finished_of_fetch (h : l.fetch = (.ok t, l')) (hlength : ¬l'.rest.length < l.rest.length) :
    l'.finished = true := by
  unfold fetch at h
  split at h
  · cases h
    assumption
  · split at h
    · cases h
      rfl
    · cases h
    · rename_i hscan
      split at h
      · cases h
      · cases h
        exact absurd (scan_shortens hscan) hlength

theorem supply_of_finished (h : l.finished = true) : l.supply = 0 := by
  have hfetch : l.fetch = (.ok l.finishToken, l) := by
    rw [fetch, if_pos h]
  rw [supply_of_fetch hfetch, if_neg (Nat.lt_irrefl _)]

theorem fetch_spends (h : l.fetch = (.ok t, l')) : l'.supply + weight t ≤ l.supply := by
  by_cases hlength : l'.rest.length < l.rest.length
  · rw [supply_of_fetch h, if_pos hlength]
    omega
  · have ht : t.kind = .finish := by
      by_contra ht
      exact hlength (fetch_shortens h ht)
    rw [supply_of_finished (finished_of_fetch h hlength), weight, if_pos ht]
    exact Nat.zero_le _

/-- A token that is read is not ahead any longer. -/
theorem next_spends (h : l.next = (.ok t, l')) : l'.ahead + weight t ≤ l.ahead := by
  rcases hpushed : l.pushed with _ | u
  · rw [next_eq_fetch hpushed] at h
    simp only [ahead, pushed_fetch h, hpushed, Option.map_none, Option.getD_none]
    exact fetch_spends h
  · simp only [next, hpushed] at h
    cases h
    simp only [ahead, hpushed, supply_pushed, Option.map_none, Option.map_some, Option.getD_none,
      Option.getD_some]
    exact Nat.le_refl _

/-- There is one slot, and the token that it gets is all that is added. -/
theorem ahead_pushBack_le (l : Lexer) (t : Token) : (l.pushBack t).ahead ≤ l.ahead + weight t := by
  have hsupply : (l.pushBack t).supply = l.supply := supply_pushed l (some t)
  have hslot : (l.pushBack t).pushed = some t := rfl
  rw [ahead, ahead, hsupply, hslot, Option.map_some, Option.getD_some]
  omega

theorem supply_le (l : Lexer) : l.supply ≤ l.rest.length := by
  fun_induction supply l with
  | case1 l t after hfetch hshorter ih =>
    have ht : weight t ≤ 1 := by
      unfold weight
      split <;> omega
    omega
  | case2 | case3 => exact Nat.zero_le _

/-- There are no more tokens than characters. -/
theorem ahead_ofText_le (cs : List Char) : (ofText cs).ahead ≤ cs.length :=
  supply_le (ofText cs)

end Lexer

namespace Compile

variable {α β : Type}

/-! ## Aloof steps -/

/-- A step that leaves the lexer alone and does not run out of fuel. -/
def Aloof (x : Compile α) : Prop :=
  ∀ s, match x s with
    | .ok _ s' => s'.lexer = s.lexer
    | .error failure _ => failure ≠ .exhausted

namespace Aloof

variable {x y : Compile α} {f : α → Compile β}

theorem pure {a : α} : Aloof (pure a : Compile α) :=
  fun _ => rfl

theorem bind (hx : Aloof x) (hf : ∀ a, Aloof (f a)) : Aloof (x >>= f) := by
  intro s
  have hend := hx s
  rw [bind_apply]
  rcases hxs : x s with ⟨a, s₁⟩ | ⟨failure, s₁⟩ <;> rw [hxs] at hend
  · exact hend ▸ hf a s₁
  · exact hend

theorem ite {c : Prop} [Decidable c] (hx : Aloof x) (hy : Aloof y) : Aloof (if c then x else y) := by
  split
  · exact hx
  · exact hy

end Aloof

theorem aloof_fail (cause : GrammarFault) (place : Position) : Aloof (fail cause place : Compile α) :=
  fun _ => nofun

theorem aloof_get : Aloof (get : Compile CompileState) :=
  fun _ => rfl

theorem aloof_modifyCurrent (f : FunctionState → FunctionState) : Aloof (modifyCurrent f) :=
  fun _ => rfl

theorem aloof_modifyChunk (f : Chunk → Chunk) : Aloof (modifyChunk f) :=
  aloof_modifyCurrent _

theorem aloof_here : Aloof here :=
  fun _ => rfl

theorem aloof_emitAt (place : Position) (op : Op) (a b c : Int) : Aloof (emitAt place op a b c) :=
  fun _ => rfl

theorem aloof_emit (op : Op) (a b c : Int) : Aloof (emit op a b c) :=
  fun _ => rfl

theorem aloof_patch (index target : Nat) : Aloof (patch index target) :=
  aloof_modifyChunk _

theorem aloof_constant (k : Constant) : Aloof (constant k) :=
  fun _ => rfl

theorem aloof_name (s : String) : Aloof (name s) :=
  aloof_constant _

theorem aloof_erase (index : Nat) : Aloof (erase index) :=
  aloof_modifyChunk _

theorem aloof_retarget (load : Nat) (dest receiver key : Int) :
    Aloof (retarget load dest receiver key) :=
  (aloof_modifyChunk _).bind fun _ => .pure

theorem aloof_declare (s : String) : Aloof (declare s) :=
  fun _ => rfl

theorem aloof_enterFunction (f : FunctionState) : Aloof (enterFunction f) :=
  fun _ => rfl

theorem aloof_leaveFunction : Aloof leaveFunction := by
  intro s
  rw [leaveFunction_apply]
  rcases s.enclosing with _ | ⟨outer, enclosing⟩ <;> rfl

/-! ## Paced steps -/

/-- Two versions of a step end alike, with so many tokens ahead; see the head of the module. -/
def Paced (i k : Nat) (m : α → Nat) (x y : Compile α) : Prop :=
  ∀ s, s.lexer.ahead ≤ i → x s = y s ∧
    match x s with
    | .ok a s' => s'.lexer.ahead + m a ≤ k
    | .error failure _ => failure ≠ .exhausted

variable {i j k h : Nat} {m : α → Nat} {m' : β → Nat} {x y : Compile α} {f g : α → Compile β}
  {t : Token}

namespace Paced

theorem bind (hx : Paced i j m x y) (hf : ∀ a h, h + m a ≤ j → Paced h k m' (f a) (g a)) :
    Paced i k m' (x >>= f) (y >>= g) := by
  intro s hs
  obtain ⟨heq, hend⟩ := hx s hs
  rw [bind_apply, bind_apply, ← heq]
  rcases hxs : x s with ⟨a, s₁⟩ | ⟨failure, s₁⟩ <;> rw [hxs] at hend
  · exact hf a _ hend s₁ (Nat.le_refl _)
  · exact ⟨rfl, hend⟩

/-- A step with nothing in hand in front of others. -/
theorem andThen (hx : Paced i j (fun _ => 0) x y) (hf : ∀ a, Paced j k m' (f a) (g a)) :
    Paced i k m' (x >>= f) (y >>= g) :=
  hx.bind fun a _ hle s hs => hf a s (hs.trans hle)

theorem le (hx : Paced i j m x y) (hjk : j ≤ k) : Paced i k m x y := by
  intro s hs
  obtain ⟨heq, hend⟩ := hx s hs
  refine ⟨heq, ?_⟩
  rcases hxs : x s with ⟨a, s₁⟩ | ⟨failure, s₁⟩ <;> rw [hxs] at hend
  · exact Nat.le_trans hend hjk
  · exact hend

theorem ite {c : Prop} [Decidable c] {x' y' : Compile α} (hx : c → Paced i k m x y)
    (hy : ¬c → Paced i k m x' y') : Paced i k m (if c then x else x') (if c then y else y') := by
  split
  · exact hx ‹_›
  · exact hy ‹_›

theorem pure {a : α} (hle : i + m a ≤ k) : Paced i k m (pure a : Compile α) (pure a) :=
  fun _ hs => ⟨rfl, Nat.le_trans (Nat.add_le_add_right hs _) hle⟩

end Paced

theorem Aloof.paced (hx : Aloof x) (hle : i ≤ k) : Paced i k (fun _ => 0) x x := by
  intro s hs
  refine ⟨rfl, ?_⟩
  have hend := hx s
  rcases hxs : x s with ⟨a, s₁⟩ | ⟨failure, s₁⟩ <;> rw [hxs] at hend
  · exact Nat.le_trans (hend ▸ hs) hle
  · exact hend

/-- An aloof step in front of others. -/
theorem Aloof.andThen (hx : Aloof x) (hf : ∀ a, Paced i k m' (f a) (g a)) :
    Paced i k m' (x >>= f) (x >>= g) :=
  (hx.paced (Nat.le_refl _)).andThen hf

theorem paced_fail (cause : GrammarFault) (place : Position) :
    Paced i k m (fail cause place) (fail cause place) :=
  fun _ _ => ⟨rfl, nofun⟩

theorem paced_next : Paced k k weight next next := by
  intro s hs
  refine ⟨rfl, ?_⟩
  rw [next_apply]
  rcases hnext : s.lexer.next with ⟨e | t, l⟩
  · nofun
  · exact (Lexer.next_spends hnext).trans hs

theorem paced_pushBack (hle : i + weight t ≤ k) :
    Paced i k (fun _ => 0) (pushBack t) (pushBack t) := by
  intro s hs
  exact ⟨rfl, (Lexer.ahead_pushBack_le s.lexer t).trans (by omega)⟩

/-- Reading a token in front of others. -/
theorem Paced.read {f g : Token → Compile β}
    (hf : ∀ t h, h + weight t ≤ k → Paced h j m' (f t) (g t)) :
    Paced k j m' (next >>= f) (next >>= g) :=
  paced_next.bind hf

/-- A token other than the end takes one of the tokens ahead. -/
theorem spend {kind : Token.Kind} (hle : h + weight t ≤ k) (ht : t.kind = kind)
    (hkind : kind ≠ .finish) : h + 1 ≤ k := by
  rwa [weight, if_neg (ht ▸ hkind)] at hle

theorem paced_expect (kind : Token.Kind) : Paced k k (fun _ => 0) (expect kind) (expect kind) :=
  .read fun _ _ ht => .ite (fun _ => .pure (Nat.le_of_add_right_le ht)) fun _ => paced_fail _ _

theorem paced_atTerminator : Paced k k (fun _ => 0) atTerminator atTerminator :=
  .read fun _ _ ht => (paced_pushBack ht).andThen fun _ => .pure (Nat.le_refl _)

end Compile

end ScriptEngine
