import ScriptEngine.Proofs.Source.Lines

/-!
# Positions of the index of lines

The index keeps the offsets at which lines start: that of the text and those behind its newlines
(`Source.breaks`). Seen from a line, they are the starts of the lines above, the start of the line, and
the starts of the lines below, the first of which is behind the newline that ends the line
(`OnLine.starts_eq`). Bisection among them therefore ends at the line of an offset
(`OnLine.lineIndex_eq`), and the text between two of them is the line (`OnLine.lineText_eq`).

A position counts in 32 bits. It is that of its place (`Position.wrapped_eq`) in a text that has one
byte less than 32 bits can count, as the numbers of a position start at one (`Source.Fits`).
`LineMap.Covers` says what such a position is worth: its line exists, and its column is one behind the
size of a first part of that line (`covers_position`).
-/

namespace ScriptEngine

open Text

/-! ## Starts of lines -/

namespace Source

variable {cs ds : List Char} {offset x : Nat}

theorem breaks_cons (offset : Nat) (c : Char) (cs : List Char) :
    breaks offset (c :: cs) =
      (if c = '\n' then [offset + 1] else []) ++ breaks (offset + c.utf8Size) cs := by
  unfold breaks
  rw [charIndices, List.filterMap_cons]
  by_cases hc : c = '\n' <;> simp [hc]

theorem breaks_append (offset : Nat) (cs ds : List Char) :
    breaks offset (cs ++ ds) = breaks offset cs ++ breaks (offset + byteSize cs) ds := by
  induction cs generalizing offset with
  | nil => rfl
  | cons c cs ih =>
    rw [List.cons_append, breaks_cons, ih, breaks_cons, byteSize_cons, List.append_assoc,
      Nat.add_assoc]

theorem length_breaks (offset : Nat) (cs : List Char) :
    (breaks offset cs).length = cs.count '\n' := by
  induction cs generalizing offset with
  | nil => rfl
  | cons c cs ih =>
    rw [breaks_cons, List.length_append, ih]
    by_cases hc : c = '\n'
    · rw [if_pos hc, hc, List.count_cons_self, Nat.add_comm]
      rfl
    · rw [if_neg hc, List.count_cons_of_ne hc, List.length_nil, Nat.zero_add]

theorem breaks_eq_nil (h : '\n' ∉ cs) : breaks offset cs = [] := by
  rw [← List.length_eq_zero_iff, length_breaks, List.count_eq_zero]
  exact h

/-- Lines that are ended start within the text, behind its start. -/
theorem of_mem_breaks (h : x ∈ breaks offset cs) : offset < x ∧ x ≤ offset + byteSize cs := by
  induction cs generalizing offset with
  | nil => cases h
  | cons c cs ih =>
    have := c.utf8Size_pos
    rw [byteSize_cons]
    rw [breaks_cons] at h
    rcases List.mem_append.1 h with h | h
    · split_ifs at h
      · obtain rfl := List.mem_singleton.1 h
        omega
      · cases h
    · have := ih h
      omega

end Source

/-! ## Bisection -/

theorem bisect_eq {xs : Array Nat} {x base size i : Nat} (hbase : base ≤ i) (hi : i < base + size)
    (h : ∀ j, base ≤ j → j < base + size → (j ≤ i ↔ xs.getD j 0 ≤ x)) :
    bisect xs x base size = i := by
  fun_induction bisect xs x base size with
  | case1 base size hsize half ih =>
    have hhalf : half = size / 2 := rfl
    have hmid := h (base + half) (by omega) (by omega)
    split_ifs at ih ⊢ with hlt
    · exact ih hbase (by omega) fun j hj hj' => h j hj (by omega)
    · exact ih (by omega) (by omega) fun j hj hj' => h j (by omega) (by omega)
  | case2 base size hsize => omega

/-- The last one of increasing numbers that is not above `x`. -/
theorem LineMap.lineIndex_eq {m : LineMap} {front back : List Nat} {start offset : Nat}
    (hstarts : m.starts.toList = front ++ start :: back) (hfront : ∀ x ∈ front, x ≤ offset)
    (hstart : start ≤ offset) (hback : ∀ x ∈ back, offset < x) :
    m.lineIndex offset = front.length := by
  have hget : ∀ j, m.starts.getD j 0 = ((front ++ start :: back)[j]?).getD 0 := by
    intro j
    rw [Array.getD_eq_getD_getElem?, ← Array.getElem?_toList, hstarts]
  have hsize : m.starts.size = front.length + (back.length + 1) := by
    rw [← Array.length_toList, hstarts, List.length_append, List.length_cons]
  have hat : m.starts.getD front.length 0 = start := by
    rw [hget, List.getElem?_append_right (Nat.le_refl _), Nat.sub_self]
    rfl
  have hbisect : bisect m.starts offset 0 m.starts.size = front.length := by
    refine bisect_eq (Nat.zero_le _) (by omega) fun j _ hj => ?_
    rw [hget]
    rcases Nat.lt_trichotomy j front.length with hlt | rfl | hgt
    · rw [List.getElem?_append_left hlt, List.getElem?_eq_getElem hlt]
      exact iff_of_true hlt.le (hfront _ (List.getElem_mem hlt))
    · rw [← hget, hat]
      exact iff_of_true (Nat.le_refl _) hstart
    · obtain ⟨k, rfl⟩ : ∃ k, j = front.length + (k + 1) := ⟨j - front.length - 1, by omega⟩
      have hk : k < back.length := by omega
      rw [List.getElem?_append_right (by omega), Nat.add_sub_cancel_left, List.getElem?_cons_succ,
        List.getElem?_eq_getElem hk]
      exact iff_of_false (by omega) (Nat.not_le.2 (hback _ (List.getElem_mem hk)))
  have hsome : m.starts.isEmpty = false := by
    rw [Array.isEmpty, decide_eq_false_iff_not]
    omega
  unfold lineIndex binarySearch
  rw [if_neg (by simp [hsome]), hbisect]
  dsimp only
  rw [hat]
  by_cases heq : start = offset
  · rw [if_pos heq]
  · rw [if_neg heq, if_pos (by omega)]
    exact Nat.add_sub_cancel ..

/-! ## Positions -/

/-- The place behind a text: one line down for each newline, and one column on for each byte behind
the last of them. -/
def Position.behind (before : List Char) : Position :=
  ⟨before.count '\n' + 1, byteSize (Source.lastLine before) + 1⟩

/-- A position whose numbers are kept in 32 bits. -/
def Position.wrapped (p : Position) : Position :=
  ⟨p.line % 2 ^ 32, p.column % 2 ^ 32⟩

/-- The places of a text have positions that 32 bits can hold. -/
def Source.Fits (cs : List Char) : Prop :=
  byteSize cs + 1 < 2 ^ 32

/-- A text does not get longer when its newlines are normalised. -/
theorem Source.byteSize_normalize_le (cs : List Char) : byteSize (normalize cs) ≤ byteSize cs := by
  fun_induction normalize cs with
  | case1 => exact Nat.le_refl _
  | case2 cs ih =>
    have hsize : '\n'.utf8Size = 1 := rfl
    simp only [byteSize_cons, hsize]
    omega
  | case3 c cs _ ih =>
    have hle : (if c = '\r' then '\n' else c).utf8Size ≤ c.utf8Size := by
      split_ifs with hc
      · rw [hc]
        decide
      · exact Nat.le_refl _
    simp only [byteSize_cons]
    omega

theorem Source.Fits.normalize {cs : List Char} (h : Fits cs) : Fits (normalize cs) :=
  (Nat.succ_le_succ (byteSize_normalize_le cs)).trans_lt h

theorem Position.wrapped_eq {p : Position} (hline : p.line < 2 ^ 32) (hcolumn : p.column < 2 ^ 32) :
    p.wrapped = p := by
  rw [wrapped, Nat.mod_eq_of_lt hline, Nat.mod_eq_of_lt hcolumn]

theorem LineMap.toNat_ordinal (i : Nat) : (ordinal i).toNat = (i + 1) % 2 ^ 32 := by
  rw [ordinal, UInt32.toNat_add, UInt32.toNat_ofNat']
  exact Nat.mod_add_mod ..

namespace Source.OnLine

variable {cs above first last line below : List Char} {offset : Nat}

/-- The starts of the index around that of a line. -/
theorem starts_eq (h : OnLine cs above [] line below) : ∃ front back : List Nat,
    (LineMap.ofText cs).starts.toList = front ++ byteSize above :: back ∧
      front.length = above.count '\n' ∧ (∀ x ∈ front, x ≤ byteSize above) ∧
      (∀ x ∈ back, byteSize (above ++ line) < x) ∧
      back.head? = if below = [] then none else some (byteSize (above ++ line) + 1) := by
  have hline : breaks (byteSize above) line = [] := breaks_eq_nil h.one_line
  have hfront : ∃ front : List Nat, 0 :: breaks 0 above = front ++ [byteSize above] ∧
      front.length = above.count '\n' ∧ ∀ x ∈ front, x ≤ byteSize above := by
    rcases h.above_ends with rfl | ⟨ds, rfl⟩
    · exact ⟨[], rfl, rfl, fun x hx => absurd hx List.not_mem_nil⟩
    · refine ⟨0 :: breaks 0 ds, ?_, ?_, fun x hx => ?_⟩
      · rw [breaks_append, Nat.zero_add, byteSize_append]
        rfl
      · rw [List.length_cons, length_breaks, List.count_append]
        rfl
      · rw [byteSize_append]
        rcases List.mem_cons.1 hx with rfl | hx
        · exact Nat.zero_le _
        · have := (of_mem_breaks hx).2
          omega
  obtain ⟨front, hfront, hlength, hle⟩ := hfront
  refine ⟨front, breaks (byteSize (above ++ line)) below, ?_, hlength, hle,
    fun x hx => (of_mem_breaks hx).1, ?_⟩
  · change 0 :: breaks 0 cs = _
    rw [h.text, List.nil_append, breaks_append, Nat.zero_add, breaks_append, hline, List.nil_append,
      ← byteSize_append, ← List.cons_append, hfront, List.append_assoc, List.singleton_append]
  · rcases h.below_starts with rfl | ⟨ds, rfl⟩
    · rfl
    · rw [breaks_cons, if_pos rfl, if_neg (by simp)]
      rfl

/-- The index of the line of an offset, which need not be between two characters. -/
theorem lineIndex_eq (h : OnLine cs above [] line below) (hstart : byteSize above ≤ offset)
    (hstop : below = [] ∨ offset ≤ byteSize (above ++ line)) :
    (LineMap.ofText cs).lineIndex offset = above.count '\n' := by
  obtain ⟨front, back, hstarts, hlength, hle, hback, hhead⟩ := h.starts_eq
  rw [← hlength]
  refine LineMap.lineIndex_eq hstarts (fun x hx => (hle x hx).trans hstart) hstart fun x hx => ?_
  rcases hstop with rfl | hstop
  · rw [if_pos rfl, List.head?_eq_none_iff] at hhead
    rw [hhead] at hx
    cases hx
  · exact hstop.trans_lt (hback x hx)

theorem getD_starts (h : OnLine cs above [] line below) :
    (LineMap.ofText cs).starts.getD (above.count '\n') 0 = byteSize above := by
  obtain ⟨front, back, hstarts, hlength, -⟩ := h.starts_eq
  rw [Array.getD_eq_getD_getElem?, ← Array.getElem?_toList, hstarts, ← hlength,
    List.getElem?_append_right (Nat.le_refl _), Nat.sub_self]
  rfl

/-- The position of an offset on a line. -/
theorem position_offset (h : OnLine cs above [] line below) (hstart : byteSize above ≤ offset)
    (hstop : below = [] ∨ offset ≤ byteSize (above ++ line)) :
    (LineMap.ofText cs).position offset =
      Position.wrapped ⟨above.count '\n' + 1, offset - byteSize above + 1⟩ := by
  unfold LineMap.position
  dsimp only
  rw [h.lineIndex_eq hstart hstop, h.getD_starts, LineMap.toNat_ordinal, LineMap.toNat_ordinal]
  rfl

/-- The position of the place counts the newlines above, and the bytes of its line up to it. -/
theorem position_eq (h : OnLine cs above first last below) :
    (LineMap.ofText cs).position (byteSize (above ++ first)) =
      Position.wrapped ⟨above.count '\n' + 1, byteSize first + 1⟩ := by
  have hstop : byteSize (above ++ first) ≤ byteSize (above ++ (first ++ last)) := by
    rw [byteSize_append, byteSize_append, byteSize_append]
    omega
  rw [h.atStart.position_offset (by rw [byteSize_append]; omega) (.inr hstop), byteSize_append,
    Nat.add_sub_cancel_left]

/-- The position of a place that 32 bits can hold. -/
theorem position_eq_of_fits (h : OnLine cs above first last below) (hfits : Fits cs) :
    (LineMap.ofText cs).position (byteSize (above ++ first)) =
      ⟨above.count '\n' + 1, byteSize first + 1⟩ := by
  have hcount : above.count '\n' ≤ byteSize above :=
    List.count_le_length.trans (length_le_byteSize above)
  have hsize : byteSize above + byteSize first ≤ byteSize cs := by
    rw [h.text, byteSize_append, byteSize_append]
    omega
  unfold Fits at hfits
  rw [h.position_eq, Position.wrapped_eq] <;> dsimp only <;> omega

/-- The text of the line is cut out between its start and the next one, or the end of the source. -/
theorem lineText_eq (h : OnLine cs above first last below) :
    (LineMap.ofText cs).lineText (above.count '\n' + 1) = first ++ last := by
  obtain ⟨front, back, hstarts, hlength, -, -, hhead⟩ := h.atStart.starts_eq
  have hsize : (LineMap.ofText cs).starts.size = front.length + (back.length + 1) := by
    rw [← Array.length_toList, hstarts, List.length_append, List.length_cons]
  have hnext : (LineMap.ofText cs).starts[above.count '\n' + 1]? =
      if below = [] then none else some (byteSize (above ++ (first ++ last)) + 1) := by
    rw [← Array.getElem?_toList, hstarts, ← hlength, List.getElem?_append_right (by omega),
      Nat.add_sub_cancel_left, List.getElem?_cons_succ, ← List.head?_eq_getElem?, hhead]
  have htext : cs = above ++ (first ++ last) ++ below := by
    rw [h.text]
    simp only [List.append_assoc]
  have hslice := slice?_append above (first ++ last) below
  rw [← htext] at hslice
  have hle : byteSize above ≤ byteSize (above ++ (first ++ last)) := by
    rw [byteSize_append]
    omega
  unfold LineMap.lineText
  rw [if_neg (by omega), Nat.add_sub_cancel, h.atStart.getD_starts]
  dsimp only
  rw [hnext]
  by_cases hbelow : below = []
  · have hsource : byteSize (LineMap.ofText cs).text = byteSize (above ++ (first ++ last)) := by
      rw [LineMap.ofText, htext, hbelow, List.append_nil]
    rw [if_pos hbelow, hsource, Nat.max_eq_left hle]
    exact congrArg (·.getD []) hslice
  · rw [if_neg hbelow]
    dsimp only
    rw [Nat.add_sub_cancel, Nat.max_eq_left hle]
    exact congrArg (·.getD []) hslice

end Source.OnLine

namespace LineMap

variable {cs before after : List Char}

theorem lineCount_ofText (cs : List Char) : (ofText cs).lineCount = cs.count '\n' + 1 := by
  rw [lineCount, ofText, List.size_toArray, List.length_cons, Source.length_breaks]

/-- The index of lines finds the position behind a first part of its text. -/
theorem position_eq_behind (before after : List Char) :
    (ofText (before ++ after)).position (byteSize before) = (Position.behind before).wrapped := by
  obtain ⟨above, first, last, below, rfl, rfl, h⟩ := Source.exists_onLine before after
  rw [h.position_eq, Position.behind, Source.lastLine_append h.above_ends h.newline_notMem_first,
    List.count_append, List.count_eq_zero.2 h.newline_notMem_first, Nat.add_zero]

theorem position_eq_behind_of_fits (hfits : Source.Fits (before ++ after)) :
    (ofText (before ++ after)).position (byteSize before) = .behind before := by
  obtain ⟨above, first, last, below, rfl, rfl, h⟩ := Source.exists_onLine before after
  rw [h.position_eq_of_fits hfits, Position.behind,
    Source.lastLine_append h.above_ends h.newline_notMem_first, List.count_append,
    List.count_eq_zero.2 h.newline_notMem_first, Nat.add_zero]

/-- A position that is in a line of the source, between two characters or at an end of the line. -/
def Covers (m : LineMap) (place : Position) : Prop :=
  1 ≤ place.line ∧ place.line ≤ m.lineCount ∧ ∃ first last,
    m.lineText place.line = first ++ last ∧ place.column = byteSize first + 1

/-- The position of a place between two characters of a source. -/
theorem covers_position (hfits : Source.Fits (before ++ after)) :
    (ofText (before ++ after)).Covers ((ofText (before ++ after)).position (byteSize before)) := by
  obtain ⟨above, first, last, below, rfl, rfl, h⟩ := Source.exists_onLine before after
  rw [h.position_eq_of_fits hfits]
  refine ⟨Nat.succ_pos _, ?_, first, last, h.lineText_eq, rfl⟩
  rw [lineCount_ofText, List.count_append, List.count_append]
  dsimp only
  omega

end LineMap

end ScriptEngine
