import ScriptEngine.Proofs.Expression.Temporaries

/-!
# The window of a new frame

A new frame finds the scope of its activation in register 0, what it was called on in register 1,
its arguments in the registers below zero, the first of them in register -1, and void everywhere
else.
-/

namespace ScriptEngine

/-- Arguments go into a window from an index downwards. -/
theorem getElem?_placeArguments {args : List Value} {window : Array Value} {base n : Nat}
    (hbase : base ≤ window.size) : (placeArguments window base args)[n]? =
      if n < base ∧ base - 1 - n < args.length then args[base - 1 - n]? else window[n]? := by
  induction args generalizing window base with
  | nil => simp [placeArguments]
  | cons v args ih =>
    cases base with
    | zero => simp [placeArguments]
    | succ slot =>
      rw [placeArguments, ih (by rw [Array.size_setIfInBounds]; omega)]
      rcases Nat.lt_trichotomy n slot with hn | rfl | hn
      · have hindex : slot + 1 - 1 - n = slot - 1 - n + 1 := by omega
        have hne : slot ≠ n := by omega
        simp only [hindex, hn, List.length_cons, List.getElem?_cons_succ,
          Array.getElem?_setIfInBounds, hne, if_false, true_and]
        congr 1
        simp only [eq_iff_iff]
        omega
      · have hlt : n < window.size := by omega
        simp [hlt]
      · have hne : slot ≠ n := by omega
        rw [if_neg (by omega), if_neg (by omega), Array.getElem?_setIfInBounds, if_neg hne]

namespace Chunk

variable {c : Chunk} {receiver : Value} {args : Array Value} {n : Nat}

theorem getElem?_initialWindow (hn : n < c.windowSize) :
    (c.initialWindow receiver args)[n]? =
      if n < c.base ∧ c.base - 1 - n < min c.paramCount args.size then args[c.base - 1 - n]?
      else if n = c.base + 1 then some receiver else some .void := by
  have hbase : c.base + 3 ≤ c.windowSize := Nat.le_max_right _ _
  unfold initialWindow
  dsimp only
  rw [getElem?_placeArguments (by simp; omega)]
  have hlength : (args.toList.take c.paramCount).length = min c.paramCount args.size := by
    rw [List.length_take, Array.length_toList]
  rw [hlength]
  split
  · rename_i hparam
    rw [List.getElem?_take, if_pos (lt_of_lt_of_le hparam.2 (Nat.min_le_left _ _)),
      Array.getElem?_toList]
  · rw [Array.getElem?_setIfInBounds, Array.size_replicate, Array.getElem?_replicate, if_pos hn]
    by_cases hreceiver : n = c.base + 1
    · rw [if_pos hreceiver.symm, if_pos (hreceiver ▸ hn), if_pos hreceiver]
    · rw [if_neg (Ne.symm hreceiver), if_neg hreceiver]

end Chunk

namespace Frame

variable {c : Chunk} {scope : ScopeRef} {receiver : Value} {args : Array Value} {e e₁ : Engine}
  {f : Frame} {n : Nat}

/-- What is in the window of a new frame. -/
theorem cell?_newFrame (h : newFrame c scope receiver args e = .ok f e₁) :
    e₁.heap.cell? ⟨f.window, n⟩ = if n = c.base then some (.scope f.activation)
      else (c.initialWindow receiver args)[n]? := by
  let h₁ := (e.heap.newWindow (c.initialWindow receiver args)).2
  let h₂ := (h₁.newScope (.activation scope ⟨e.heap.windows.size⟩ ∅ ∅)).2
  have hnew : newFrame c scope receiver args e =
      .ok ⟨c, ⟨e.heap.windows.size⟩, ⟨h₁.scopes.size⟩, c.base⟩
        { e with heap := h₂.setCell ⟨⟨e.heap.windows.size⟩, c.base⟩ (.scope ⟨h₁.scopes.size⟩) } :=
    rfl
  obtain ⟨rfl, rfl⟩ := EStateM.Result.ok.inj (hnew.symm.trans h)
  have hwindow : h₂.window ⟨e.heap.windows.size⟩ = c.initialWindow receiver args :=
    (Heap.window_newWindow _ _).trans (if_pos rfl)
  have hbase : c.base < c.windowSize := lt_of_lt_of_le (by omega) (Nat.le_max_right _ _)
  show (h₂.setCell ⟨⟨e.heap.windows.size⟩, c.base⟩ _).cell? ⟨⟨e.heap.windows.size⟩, n⟩ = _
  rw [Heap.cell?_setCell, hwindow, Chunk.size_initialWindow]
  by_cases hn : n = c.base
  · subst hn
    rw [if_pos ⟨rfl, hbase⟩, if_pos rfl]
  · rw [if_neg fun heq => hn (congrArg Cell.index heq.1).symm, if_neg hn, Heap.cell?, hwindow]

theorem chunk_newFrame (h : newFrame c scope receiver args e = .ok f e₁) :
    f.chunk = c ∧ f.base = c.base := by
  cases h
  exact ⟨rfl, rfl⟩

/-- Register 0 of a new frame. -/
theorem contents_newFrame_activation (h : newFrame c scope receiver args e = .ok f e₁) :
    f.contents e₁ 0 = .scope f.activation := by
  rw [contents, cell, cell?_newFrame h, if_pos (by rw [(chunk_newFrame h).2]; simp)]
  rfl

/-- Register 1 of a new frame. -/
theorem contents_newFrame_receiver (h : newFrame c scope receiver args e = .ok f e₁) :
    f.contents e₁ 1 = receiver := by
  have hindex : ((f.base : Int) + 1).toNat = c.base + 1 := by
    rw [(chunk_newFrame h).2]
    omega
  have hsize : c.base + 1 < c.windowSize := lt_of_lt_of_le (by omega) (Nat.le_max_right _ _)
  rw [contents, cell, hindex, cell?_newFrame h, if_neg (by omega),
    Chunk.getElem?_initialWindow hsize, if_neg (by omega), if_pos rfl]
  rfl

/-- The registers below zero of a new frame hold the arguments, as far as there are parameters. -/
theorem contents_newFrame_argument (h : newFrame c scope receiver args e = .ok f e₁)
    (hn : n < min c.paramCount args.size) (hbase : n < c.base) :
    args[n]? = some (f.contents e₁ (-(n + 1))) := by
  have hindex : ((f.base : Int) + -(n + 1)).toNat = c.base - 1 - n := by
    rw [(chunk_newFrame h).2]
    omega
  have hsize : c.base - 1 - n < c.windowSize :=
    lt_of_lt_of_le (b := c.base + 3) (by omega) (Nat.le_max_right _ _)
  have hback : c.base - 1 - (c.base - 1 - n) = n := by omega
  rw [contents, cell, hindex, cell?_newFrame h, if_neg (by omega),
    Chunk.getElem?_initialWindow hsize, hback, if_pos ⟨by omega, hn⟩,
    Array.getElem?_eq_getElem (lt_of_lt_of_le hn (Nat.min_le_right _ _))]
  rfl

end Frame

end ScriptEngine
