import ScriptEngine.Proofs.Diagnostic.Spans

/-!
# Colours leave the text of a report

A control sequence of a terminal is an escape character, a bracket, parameters and the letter `m`.
`Sgr.delete` deletes all of them from a text, and `Sgr.Closed` says that behind each one that is not
a reset there is a reset on the same line.

Main statement (`colours_leave_the_text`): if no text of a diagnostic contains an escape character,
the coloured report without its control sequences is the plain one, and what is coloured on a line
ends on it, as long as the texts that are set off by a style have no newlines.

Both parts go through the spans of the report from the right: a text without an escape character is
passed over, and the sequences around a span are found where they begin, whatever follows.
-/

namespace ScriptEngine

/-! ## Control sequences -/

namespace Sgr

/-- Whether a character can stand among the parameters of a control sequence. -/
def isParameter (c : Char) : Bool :=
  c.isDigit || c = ';'

/-- What is behind the control sequence that a text begins with. -/
def behind? : List Char → Option (List Char)
  | '\x1b' :: '[' :: cs =>
    match cs.dropWhile isParameter with
    | 'm' :: rest => some rest
    | _ => none
  | _ => none

theorem length_behind? {cs rest : List Char} (h : behind? cs = some rest) :
    rest.length < cs.length := by
  unfold behind? at h
  split at h
  · rename_i cs
    have hdrop := (List.dropWhile_suffix isParameter (l := cs)).length_le
    split at h
    · rename_i behind hbehind
      cases h
      rw [hbehind, List.length_cons] at hdrop
      simp only [List.length_cons]
      omega
    · cases h
  · cases h

/-- A text without its control sequences. -/
def delete (cs : List Char) : List Char :=
  if hsome : (behind? cs).isSome then delete ((behind? cs).get hsome)
  else if hcs : cs ≠ [] then cs.head hcs :: delete cs.tail
  else []
termination_by cs.length
decreasing_by
  · exact length_behind? (Option.some_get hsome).symm
  · rw [List.length_tail]
    exact Nat.sub_lt (List.length_pos_iff.2 hcs) Nat.one_pos

@[simp] theorem delete_nil : delete [] = [] := by
  rw [delete]
  rfl

theorem delete_cons {c : Char} {cs : List Char} (h : behind? (c :: cs) = none) :
    delete (c :: cs) = c :: delete cs := by
  rw [delete]
  simp [h]

theorem delete_of_behind? {cs rest : List Char} (h : behind? cs = some rest) :
    delete cs = delete rest := by
  rw [delete]
  simp [h]

/-- The control sequence with given parameters. -/
def sequence (params : List Char) : List Char :=
  '\x1b' :: '[' :: (params ++ ['m'])

/-- The control sequence that ends all styles. -/
def reset : List Char :=
  sequence ['0']

/-- Behind each control sequence that is not a reset there is a reset before the line ends. -/
def Closed (cs : List Char) : Prop :=
  ∀ before params rest : List Char, (∀ c ∈ params, isParameter c = true) → params ≠ ['0'] →
    cs = before ++ (sequence params ++ rest) →
      ∃ inside behind, rest = inside ++ (reset ++ behind) ∧ '\n' ∉ inside

/-! ## Texts without escape characters -/

/-- An escape character behind a text without one comes from what follows the text. -/
theorem split_behind_text {text rest before tail : List Char} (htext : '\x1b' ∉ text)
    (h : text ++ rest = before ++ '\x1b' :: tail) :
    ∃ front, before = text ++ front ∧ rest = front ++ '\x1b' :: tail := by
  rcases List.append_eq_append_iff.1 h with ⟨front, hbefore, hrest⟩ | ⟨front, htext', htail⟩
  · exact ⟨front, hbefore, hrest⟩
  · cases front with
    | nil => exact ⟨[], by simpa using htext'.symm, by simpa using htail.symm⟩
    | cons c front =>
      obtain ⟨rfl, -⟩ := List.cons.inj htail
      exact absurd (htext' ▸ List.mem_append_right before (List.mem_cons_self ..)) htext

theorem delete_text {text : List Char} (htext : '\x1b' ∉ text) (rest : List Char) :
    delete (text ++ rest) = text ++ delete rest := by
  induction text with
  | nil => rfl
  | cons c text ih =>
    have hc : c ≠ '\x1b' := fun h => htext (h ▸ List.mem_cons_self ..)
    have hnone : behind? (c :: (text ++ rest)) = none := by
      unfold behind?
      split
      · rename_i heq
        exact absurd (List.cons.inj heq).1 hc
      · rfl
    rw [List.cons_append, delete_cons hnone, ih fun h => htext (List.mem_cons_of_mem _ h),
      List.cons_append]

theorem Closed.text {text rest : List Char} (h : Closed rest) (htext : '\x1b' ∉ text) :
    Closed (text ++ rest) := by
  intro before params tail hparams hopens heq
  obtain ⟨front, -, hrest⟩ := split_behind_text htext heq
  exact h front params tail hparams hopens hrest

theorem closed_nil : Closed [] := by
  intro before params rest _ _ h
  simp [sequence] at h

/-! ## Control sequences in front of a text -/

section Sequence

variable {params rest : List Char} (hparams : ∀ c ∈ params, isParameter c = true)

include hparams

theorem behind?_sequence : behind? (sequence params ++ rest) = some rest := by
  have hdrop : (params ++ 'm' :: rest).dropWhile isParameter = 'm' :: rest := by
    rw [List.dropWhile_append_of_pos hparams]
    rfl
  simp only [sequence, behind?, List.cons_append, List.append_assoc, List.nil_append, hdrop]

theorem delete_sequence : delete (sequence params ++ rest) = delete rest :=
  delete_of_behind? (behind?_sequence hparams)

/-- A control sequence in front of a text is closed if it is a reset or has one behind it. -/
theorem Closed.sequence (h : Closed rest) (hcloses : params ≠ ['0'] →
      ∃ inside behind, rest = inside ++ (reset ++ behind) ∧ '\n' ∉ inside) :
    Closed (sequence params ++ rest) := by
  intro before params' tail hparams' hopens heq
  rcases before with _ | ⟨c, before⟩
  · -- Both are the sequence at the start of the text.
    have hbehind : behind? (Sgr.sequence params ++ rest) = some rest := behind?_sequence hparams
    rw [heq, List.nil_append, behind?_sequence hparams'] at hbehind
    obtain rfl := Option.some.inj hbehind
    have hsame : Sgr.sequence params = Sgr.sequence params' := List.append_cancel_right heq
    have hlist : params = params' :=
      List.append_cancel_right (List.cons.inj (List.cons.inj hsame).2).2
    exact hcloses (hlist ▸ hopens)
  · have hinside : '\x1b' ∉ '[' :: (params ++ ['m']) := by
      intro hmem
      rcases List.mem_cons.1 hmem with h | h
      · cases h
      · rcases List.mem_append.1 h with h | h
        · exact absurd (hparams _ h) (by decide)
        · simp at h
    exact (h.text hinside) before params' tail hparams' hopens (List.cons.inj heq).2

end Sequence

theorem parameter_zero : ∀ c ∈ ['0'], isParameter c = true := by
  simp [isParameter]

end Sgr

open Sgr

/-! ## Spans -/

theorem Style.parameter_code (style : Style) : ∀ c ∈ style.code.toList, isParameter c = true := by
  cases style <;> simp [code, isParameter]

/-- The characters of a coloured span. -/
def Style.wrap (text : List Char) : List Style → List Char
  | [] => text
  | style :: styles => sequence style.code.toList ++ (wrap text styles ++ reset)

theorem Span.toList_paint (s : Span) :
    (s.paint true).toList = Style.wrap s.text.toList s.styles := by
  obtain ⟨text, styles⟩ := s
  induction styles with
  | nil => rfl
  | cons style styles ih =>
    have hpaint : Span.paint true ⟨text, style :: styles⟩ =
        "\x1b[" ++ style.code ++ "m" ++ Span.paint true ⟨text, styles⟩ ++ "\x1b[0m" := rfl
    rw [hpaint]
    simp [ih, Style.wrap, Sgr.sequence, reset]

/-- Without colours, a span is its text. -/
@[simp]
theorem Span.paint_false (s : Span) : s.paint false = s.text := by
  obtain ⟨text, styles⟩ := s
  induction styles with
  | nil => rfl
  | cons style styles ih => exact ih

namespace Style

variable {text rest : List Char}

theorem delete_wrap (htext : '\x1b' ∉ text) (styles : List Style) (rest : List Char) :
    delete (wrap text styles ++ rest) = text ++ delete rest := by
  induction styles generalizing rest with
  | nil => exact delete_text htext rest
  | cons style styles ih =>
    rw [wrap, List.append_assoc, List.append_assoc, delete_sequence style.parameter_code, ih, reset,
      delete_sequence parameter_zero]

theorem newline_notMem_wrap (htext : '\n' ∉ text) (styles : List Style) :
    '\n' ∉ wrap text styles := by
  induction styles with
  | nil => exact htext
  | cons style styles ih =>
    have hcode : '\n' ∉ sequence style.code.toList := by cases style <;> decide
    have hreset : '\n' ∉ reset := by decide
    simp [wrap, hcode, hreset, ih]

theorem closed_wrap (htext : '\x1b' ∉ text) (styles : List Style)
    (hline : styles ≠ [] → '\n' ∉ text) (hrest : Closed rest) : Closed (wrap text styles ++ rest) := by
  induction styles generalizing rest with
  | nil => exact hrest.text htext
  | cons style styles ih =>
    have hnewline : '\n' ∉ wrap text styles := newline_notMem_wrap (hline nofun) styles
    have hinner : Closed (wrap text styles ++ (reset ++ rest)) :=
      ih (fun _ => hline nofun) (hrest.sequence parameter_zero fun h => absurd rfl h)
    rw [wrap, List.append_assoc, List.append_assoc]
    exact hinner.sequence style.parameter_code fun _ => ⟨_, rest, rfl, hnewline⟩

end Style

/-! ## Lines -/

theorem delete_line {line : List Span} (h : ∀ s ∈ line, '\x1b' ∉ s.text.toList) (rest : List Char) :
    delete (line.flatMap (fun s => (s.paint true).toList) ++ rest) =
      line.flatMap (fun s => (s.paint false).toList) ++ delete rest := by
  induction line with
  | nil => rfl
  | cons s line ih =>
    have htext := h s (List.mem_cons_self ..)
    rw [List.flatMap_cons, List.append_assoc, Span.toList_paint, Style.delete_wrap htext,
      ih fun s hs => h s (List.mem_cons_of_mem _ hs), List.flatMap_cons, List.append_assoc,
      Span.paint_false]

theorem closed_line {line : List Span} (h : ∀ s ∈ line, '\x1b' ∉ s.text.toList)
    (hstyled : ∀ s ∈ line, s.styles ≠ [] → '\n' ∉ s.text.toList) {rest : List Char}
    (hrest : Closed rest) : Closed (line.flatMap (fun s => (s.paint true).toList) ++ rest) := by
  induction line with
  | nil => exact hrest
  | cons s line ih =>
    have hline : Closed (line.flatMap (fun s => (s.paint true).toList) ++ rest) :=
      ih (fun s hs => h s (List.mem_cons_of_mem _ hs))
        fun s hs => hstyled s (List.mem_cons_of_mem _ hs)
    rw [List.flatMap_cons, List.append_assoc, Span.toList_paint]
    exact Style.closed_wrap (h s (List.mem_cons_self ..)) s.styles
      (hstyled s (List.mem_cons_self ..)) hline

namespace Diagnostic

variable {d : Diagnostic}

theorem escape_notMem_newline : '\x1b' ∉ ['\n'] := by decide

theorem delete_coloured (h : ∀ line ∈ d.lines, ∀ s ∈ line, '\x1b' ∉ s.text.toList) :
    delete d.coloured.toList = d.plain.toList := by
  rw [coloured, plain, render_eq, render_eq, toList_pageText, toList_pageText]
  generalize d.lines = ls at h
  induction ls with
  | nil => simp
  | cons line ls ih =>
    rw [List.flatMap_cons, List.append_assoc, delete_line (h line (List.mem_cons_self ..)),
      delete_text escape_notMem_newline, ih fun line hline => h line (List.mem_cons_of_mem _ hline),
      List.flatMap_cons, List.append_assoc]

theorem closed_coloured (h : ∀ line ∈ d.lines, ∀ s ∈ line, '\x1b' ∉ s.text.toList)
    (hstyled : ∀ line ∈ d.lines, ∀ s ∈ line, s.styles ≠ [] → '\n' ∉ s.text.toList) :
    Closed d.coloured.toList := by
  rw [coloured, render_eq, toList_pageText]
  generalize d.lines = ls at h hstyled
  induction ls with
  | nil => exact closed_nil
  | cons line ls ih =>
    have hrest := ih (fun line hline => h line (List.mem_cons_of_mem _ hline))
      fun line hline => hstyled line (List.mem_cons_of_mem _ hline)
    rw [List.flatMap_cons, List.append_assoc]
    exact closed_line (h line (List.mem_cons_self ..)) (hstyled line (List.mem_cons_self ..))
      (hrest.text escape_notMem_newline)

/-! ## Reports -/

/-- No text of a diagnostic contains a character. -/
structure Lacks (d : Diagnostic) (c : Char) : Prop where
  message : c ∉ d.message.toList
  code : ∀ code ∈ d.code, c ∉ code.toList
  labels : ∀ l ∈ d.labels, c ∉ l.message.toList
  notes : ∀ note ∈ d.notes, c ∉ note.toList
  suggestion : ∀ s ∈ d.suggestion, c ∉ s.toList
  source : ∀ source ∈ d.source, c ∉ source

/-- The lines of a report are its headline, the place of its primary label, with an excerpt if there
is a source, and lines below. -/
theorem mem_lines {line : List Span} (h : line ∈ d.lines) : line = d.headline ∨
    (∃ label ∈ d.labels, line = arrowLine label.position ∨
      ∃ source ∈ d.source, line ∈ excerpt label source) ∨
    ∃ text, line = footLine text ∧ ((∃ l ∈ d.labels, text = toString l.position.line ++ ":" ++
      toString l.position.column ++ " " ++ l.message) ∨ (∃ note ∈ d.notes, text = "note: " ++ note) ∨
        ∃ s ∈ d.suggestion, text = "suggestion: " ++ s) := by
  simp only [lines, List.cons_append, List.mem_cons, List.mem_append, List.mem_map] at h
  rcases h with rfl | (((h | ⟨l, hl, rfl⟩) | ⟨note, hnote, rfl⟩) | ⟨s, hs, rfl⟩)
  · exact .inl rfl
  · rcases hprimary : d.primary? with _ | label <;> rw [hprimary] at h
    · cases h
    refine .inr (.inl ⟨label, List.mem_of_find?_eq_some hprimary, ?_⟩)
    rcases List.mem_cons.1 h with rfl | h
    · exact .inl rfl
    · rcases hsource : d.source with _ | source <;> rw [hsource] at h
      · cases h
      · exact .inr ⟨source, rfl, h⟩
  · exact .inr (.inr ⟨_, rfl, .inl ⟨l, List.mem_of_mem_filter hl, rfl⟩⟩)
  · exact .inr (.inr ⟨_, rfl, .inr (.inl ⟨note, hnote, rfl⟩)⟩)
  · exact .inr (.inr ⟨_, rfl, .inr (.inr ⟨s, Option.mem_toList.1 hs, rfl⟩)⟩)

/-- The characters of a line are characters of the source. -/
theorem mem_of_mem_lineText {c : Char} {cs : List Char} {line : Nat}
    (h : c ∈ (LineMap.ofText cs).lineText line) : c ∈ cs := by
  unfold LineMap.lineText at h
  split at h
  · cases h
  · dsimp only at h
    rcases hslice : Text.slice? (LineMap.ofText cs).text _ _ with _ | part <;> rw [hslice] at h
    · cases h
    · obtain ⟨front, behind, hcs, -, -⟩ := Text.slice?_eq_some.1 hslice
      obtain rfl : cs = front ++ part ++ behind := hcs
      exact List.mem_append_left _ (List.mem_append_right _ h)

theorem escape_notMem_toDigits (n : Nat) : '\x1b' ∉ Nat.toDigits 10 n := fun h => by
  have hdigit := Nat.isDigit_of_mem_toDigits (by decide) (le_refl 10) h
  cases hdigit

theorem newline_notMem_toDigits (n : Nat) : '\n' ∉ Nat.toDigits 10 n := fun h => by
  have hdigit := Nat.isDigit_of_mem_toDigits (by decide) (le_refl 10) h
  cases hdigit

/-- The spans of the headline are the word for the severity, the code and the message. -/
theorem mem_headline {s : Span} (h : s ∈ d.headline) :
    s.text = "error" ∨ s.text = "warning" ∨ s.text = d.message ∨
      s.styles = [] ∧ (s.text = ": " ∨ ∃ code ∈ d.code, s.text = "[" ++ code ++ "]") := by
  simp only [headline, List.cons_append, List.mem_cons, List.mem_append, List.not_mem_nil,
    or_false] at h
  rcases h with rfl | h | rfl | rfl
  · cases hseverity : d.severity <;> simp [severitySpan, hseverity]
  · rcases hcode : d.code with _ | code <;> rw [hcode] at h
    · cases h
    · obtain rfl := List.mem_singleton.1 h
      exact .inr (.inr (.inr ⟨rfl, .inr ⟨code, rfl, rfl⟩⟩))
  · exact .inr (.inr (.inr ⟨rfl, .inl rfl⟩))
  · exact .inr (.inr (.inl rfl))

theorem toList_pushn_space (n : Nat) : ("".pushn ' ' n).toList = List.replicate n ' ' := by
  induction n with
  | zero => rfl
  | succ n ih =>
    have hpush : ("".pushn ' ' (n + 1)).toList = ("".pushn ' ' n).toList ++ [' '] :=
      String.toList_push _
    rw [hpush, ih, List.replicate_succ']

/-- The spans of an excerpt are the line of source, the message of the label, and what frames
them. -/
theorem mem_excerpt {label : Label} {source : List Char} {line : List Span} {s : Span}
    (hline : line ∈ excerpt label source) (hs : s ∈ line) :
    s.text = label.message ∨ s.text = toString label.position.line ∨ s.text = "|" ∨ s.text = "^" ∨
      s.styles = [] ∧ ∀ c ∈ s.text.toList, c = ' ' ∨ c ∈ source := by
  have hspaces : ∀ n, ∀ c ∈ ("".pushn ' ' n).toList, c = ' ' := fun n c hc => by
    rw [toList_pushn_space] at hc
    exact List.eq_of_mem_replicate hc
  have hpad : ∀ n, ∀ c ∈ ("".pushn ' ' n ++ " ").toList, c = ' ' ∨ c ∈ source := fun n c hc => by
    rw [String.toList_append] at hc
    rcases List.mem_append.1 hc with h | h
    · exact .inl (hspaces n c h)
    · exact .inl (List.mem_singleton.1 h)
  have hindent : ∀ n, ∀ c ∈ (" " ++ "".pushn ' ' n).toList, c = ' ' ∨ c ∈ source := fun n c hc => by
    rw [String.toList_append] at hc
    rcases List.mem_append.1 hc with h | h
    · exact .inl (List.mem_singleton.1 h)
    · exact .inl (hspaces n c h)
  have hspace : ∀ c ∈ " ".toList, c = ' ' ∨ c ∈ source := fun c hc =>
    .inl (List.mem_singleton.1 hc)
  have htext : ∀ c ∈ (" " ++ String.ofList ((LineMap.ofText source).lineText
      label.position.line)).toList, c = ' ' ∨ c ∈ source := fun c hc => by
    rw [String.toList_append] at hc
    rcases List.mem_append.1 hc with h | h
    · exact .inl (List.mem_singleton.1 h)
    · exact .inr (mem_of_mem_lineText (String.toList_ofList ▸ h))
  simp only [excerpt, bar, List.mem_cons, List.not_mem_nil, or_false] at hline
  rcases hline with rfl | rfl | rfl | rfl
  · simp only [List.mem_cons, List.not_mem_nil, or_false] at hs
    rcases hs with rfl | rfl
    · exact .inr (.inr (.inr (.inr ⟨rfl, hpad _⟩)))
    · exact .inr (.inr (.inl rfl))
  · simp only [List.mem_cons, List.not_mem_nil, or_false] at hs
    rcases hs with rfl | rfl | rfl | rfl
    · exact .inr (.inl rfl)
    · exact .inr (.inr (.inr (.inr ⟨rfl, hspace⟩)))
    · exact .inr (.inr (.inl rfl))
    · exact .inr (.inr (.inr (.inr ⟨rfl, htext⟩)))
  · simp only [List.cons_append, List.nil_append, List.mem_cons] at hs
    rcases hs with rfl | rfl | rfl | rfl | hs
    · exact .inr (.inr (.inr (.inr ⟨rfl, hpad _⟩)))
    · exact .inr (.inr (.inl rfl))
    · exact .inr (.inr (.inr (.inr ⟨rfl, hindent _⟩)))
    · exact .inr (.inr (.inr (.inl rfl)))
    · split at hs
      · cases hs
      · simp only [List.mem_cons, List.not_mem_nil, or_false] at hs
        rcases hs with rfl | rfl
        · exact .inr (.inr (.inr (.inr ⟨rfl, hspace⟩)))
        · exact .inl rfl
  · simp only [List.mem_cons, List.not_mem_nil, or_false] at hs
    rcases hs with rfl | rfl
    · exact .inr (.inr (.inr (.inr ⟨rfl, hpad _⟩)))
    · exact .inr (.inr (.inl rfl))

/-- No span of a report has an escape character. -/
theorem escape_notMem_lines (hd : d.Lacks '\x1b') :
    ∀ line ∈ d.lines, ∀ s ∈ line, '\x1b' ∉ s.text.toList := by
  intro line hline s hs
  rcases mem_lines hline with rfl | ⟨label, hlabel, rfl | ⟨source, hsource, hexcerpt⟩⟩ |
    ⟨text, rfl, htext⟩
  · rcases mem_headline hs with h | h | h | ⟨-, h | ⟨code, hcode, h⟩⟩
    · simp [h]
    · simp [h]
    · exact h ▸ hd.message
    · simp [h]
    · simp [h, hd.code code hcode]
  · simp only [arrowLine, List.mem_cons, List.not_mem_nil, or_false] at hs
    rcases hs with rfl | rfl | rfl <;> simp [escape_notMem_toDigits]
  · rcases mem_excerpt hexcerpt hs with h | h | h | h | ⟨-, hchars⟩
    · exact h ▸ hd.labels label hlabel
    · simp [h, escape_notMem_toDigits]
    · simp [h]
    · simp [h]
    · intro hmem
      rcases hchars _ hmem with h | h
      · cases h
      · exact hd.source source hsource h
  · have htext : '\x1b' ∉ text.toList := by
      rcases htext with ⟨l, hl, rfl⟩ | ⟨note, hnote, rfl⟩ | ⟨suggestion, hsuggestion, rfl⟩
      · simp [escape_notMem_toDigits, hd.labels l hl]
      · simp [hd.notes note hnote]
      · simp [hd.suggestion suggestion hsuggestion]
    simp only [footLine, List.mem_cons, List.not_mem_nil, or_false] at hs
    rcases hs with rfl | rfl | rfl <;> simp [htext]

/-- No span that is set off has a newline, if the message and the messages of the labels have
none. -/
theorem newline_notMem_lines (hmessage : '\n' ∉ d.message.toList)
    (hlabels : ∀ l ∈ d.labels, '\n' ∉ l.message.toList) :
    ∀ line ∈ d.lines, ∀ s ∈ line, s.styles ≠ [] → '\n' ∉ s.text.toList := by
  intro line hline s hs hstyles
  rcases mem_lines hline with rfl | ⟨label, hlabel, rfl | ⟨source, hsource, hexcerpt⟩⟩ |
    ⟨text, rfl, htext⟩
  · rcases mem_headline hs with h | h | h | ⟨h, -⟩
    · simp [h]
    · simp [h]
    · exact h ▸ hmessage
    · exact absurd h hstyles
  · simp only [arrowLine, List.mem_cons, List.not_mem_nil, or_false] at hs
    rcases hs with rfl | rfl | rfl <;> simp [newline_notMem_toDigits]
  · rcases mem_excerpt hexcerpt hs with h | h | h | h | ⟨h, -⟩
    · exact h ▸ hlabels label hlabel
    · simp [h, newline_notMem_toDigits]
    · simp [h]
    · simp [h]
    · exact absurd h hstyles
  · simp only [footLine, List.mem_cons, List.not_mem_nil, or_false] at hs
    rcases hs with rfl | rfl | rfl
    · simp
    · simp
    · exact absurd rfl hstyles

end Diagnostic

/-- The coloured report of a diagnostic whose texts contain no escape character is the plain one when
its control sequences are deleted. If the message and the messages of the labels have no newline,
every control sequence that begins a style is followed by a reset on its line. -/
theorem colours_leave_the_text (d : Diagnostic) (hd : d.Lacks '\x1b') :
    delete d.coloured.toList = d.plain.toList ∧
      ('\n' ∉ d.message.toList → (∀ l ∈ d.labels, '\n' ∉ l.message.toList) →
        Closed d.coloured.toList) := by
  have hescape := Diagnostic.escape_notMem_lines hd
  exact ⟨Diagnostic.delete_coloured hescape, fun hmessage hlabels =>
    Diagnostic.closed_coloured hescape (Diagnostic.newline_notMem_lines hmessage hlabels)⟩

/-- A warning with a primary label in the second line of its source. -/
def sampleWarning : Diagnostic where
  severity := .warning
  message := "unused"
  code := some "syntax"
  labels := [⟨⟨2, 3⟩, "here", true⟩, ⟨⟨1, 1⟩, "declared", false⟩]
  notes := ["as of now"]
  suggestion := some "drop it"
  source := some "var a;\n  a;".toList

theorem colours_leave_the_text_warning :
    sampleWarning.Lacks '\x1b' ∧ delete sampleWarning.coloured.toList = sampleWarning.plain.toList ∧
      Closed sampleWarning.coloured.toList := by
  have hlacks : sampleWarning.Lacks '\x1b' :=
    ⟨by decide, by decide, by decide, by decide, by decide, by decide⟩
  obtain ⟨hdelete, hclosed⟩ := colours_leave_the_text sampleWarning hlacks
  exact ⟨hlacks, hdelete, hclosed (by decide) (by decide)⟩

end ScriptEngine
