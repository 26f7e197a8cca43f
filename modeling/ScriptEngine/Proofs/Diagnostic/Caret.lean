import ScriptEngine.Proofs.Diagnostic.Colours
import ScriptEngine.Proofs.Printing.Lexicon
import ScriptEngine.Proofs.Reading.Order

/-!
# The caret of a report

The lexer finds the position of a byte in the normalised source, the report normalises the source
once more and looks up the line, and the caret turns the column back into a number of characters.
`Source.OnLine` cuts the source at the byte, and all three agree with the cut: the line is `first`
and `last` together, the column is one behind the bytes of `first`, and the indent of the caret is
the number of its characters (`caretIndent_append`).

Main statement (`caret_stands_below_its_character`): the report of a source that does not compile
shows the line of the error and, below it and behind a gutter of the same width, the caret behind as
many spaces as there are characters in front of the place of the error. The place is a landmark of
the source. Positions have to fit into 32 bits for that: a column that wraps around can be inside of
a character, and the caret then stands behind the whole line (`caret_stands_behind_line`).
-/

namespace ScriptEngine

open Text

namespace Diagnostic

/-- A text of `n` spaces. -/
def spaces (n : Nat) : String :=
  String.ofList (List.replicate n ' ')

/-- Lines as one text, each of them ended. -/
def page (ls : List String) : String :=
  String.join (ls.map (· ++ "\n"))

/-- A line of a report without styles. -/
def plainLine (line : List Span) : String :=
  String.join (line.map (Span.paint false))

theorem plain_eq_page (d : Diagnostic) : d.plain = page (d.lines.map plainLine) := by
  rw [plain_eq, pageText, page, List.map_map]
  rfl

/-- A numbered line between two empty ones, and below it a caret behind `indent` spaces, with a
message. What is not the line has a blank gutter, as wide as the number. -/
def pointing (number : Nat) (line : List Char) (indent : Nat) (message : String) : List String :=
  let gutter := spaces (toString number).length
  [gutter ++ " |",
    toString number ++ " | " ++ String.ofList line,
    gutter ++ " | " ++ spaces indent ++ "^ " ++ message,
    gutter ++ " |"]

theorem pushn_eq_spaces (n : Nat) : "".pushn ' ' n = spaces n := by
  rw [← String.toList_inj, toList_pushn_space, spaces, String.toList_ofList]

/-- The indent of the caret at a place of a line is the number of characters in front of it. -/
theorem caretIndent_append (first last : List Char) :
    caretIndent (first ++ last) (byteSize first + 1) = first.length := by
  have hslice := slice?_append [] first last
  rw [caretIndent, Nat.add_sub_cancel]
  simpa using congrArg (fun part => (part.getD (first ++ last)).length) hslice

/-- The indent of the caret at a column inside of a character is the whole line. -/
theorem caretIndent_inside {line : List Char} {column : Nat} (h : slice? line 0 (column - 1) = none) :
    caretIndent line column = line.length := by
  rw [caretIndent, h]
  rfl

/-- The excerpt for a label points at the column of the label. -/
theorem excerpt_plain (label : Label) (source : List Char) (hmessage : label.message ≠ "") :
    let line := (LineMap.ofText source).lineText label.position.line
    (excerpt label source).map plainLine = pointing label.position.line line
      (caretIndent line label.position.column) label.message := by
  intro line
  have hblank (s : String) : s ++ " " ++ "|" = s ++ " |" := by simp [String.append_assoc]
  have hnumbered (s : String) : s ++ " " ++ "| " = s ++ " | " := by simp [String.append_assoc]
  simp [excerpt, hmessage, line, pushn_eq_spaces, pointing, plainLine, Span.paint, Style.paint, bar,
    ← String.append_assoc, hblank, hnumbered]

/-- A place on the tenth line, behind five characters in six bytes. -/
example :
    (excerpt ⟨⟨10, 7⟩, "here", true⟩ (List.replicate 9 '\n' ++ "né = ;".toList)).map plainLine =
      ["   |", "10 | né = ;", "   |      ^ here", "   |"] := by
  decide

/-- The report of an error with one place, which is no error of a run. -/
theorem plain_ofError {e : ScriptError} {place : Position}
    (hfault : ∀ cause, e.fault ≠ .runtime cause) (htrace : e.trace = [place]) (source : String) :
    let line := (LineMap.ofText (Source.normalize source.toList)).lineText place.line
    ((ofError e).withSource source).plain = page
      (["error[" ++ e.fault.code ++ "]: " ++ e.message,
        "  --> " ++ toString place.line ++ ":" ++ toString place.column] ++
        pointing place.line line (caretIndent line place.column) "here") := by
  intro line
  have hsuggestion : suggestionFor e.fault = none := by
    rcases hcause : e.fault with cause | cause | cause
    · rfl
    · rfl
    · exact absurd hcause (hfault cause)
  have hexcerpt := excerpt_plain ⟨place, "here", true⟩ (Source.normalize source.toList) (by simp)
  have hlines : ((ofError e).withSource source).lines =
      (ofError e).headline :: arrowLine place ::
        excerpt ⟨place, "here", true⟩ (Source.normalize source.toList) := by
    simp [lines, ofError, withSource, primary?, secondary, htrace, hsuggestion, headline,
      severitySpan]
  have hheadline : plainLine (ofError e).headline =
      "error[" ++ e.fault.code ++ "]: " ++ e.message :=
    String.toList_inj.1
      (by simp [plainLine, headline, ofError, severitySpan, Span.paint, Style.paint])
  have harrow : plainLine (arrowLine place) =
      "  --> " ++ toString place.line ++ ":" ++ toString place.column :=
    String.toList_inj.1 (by simp [plainLine, arrowLine, Span.paint, Style.paint])
  rw [plain_eq_page, hlines, List.map_cons, List.map_cons, hheadline, harrow, hexcerpt]
  rfl

/-- The report of a compilation that fails shows the line of the error with a caret below its place;
see the head of the module. -/
theorem caret_stands_below_its_character (source : String) (hfits : Source.Fits source.toList) :
    let cs := Source.normalize source.toList
    match compile source with
    | .ok _ => True
    | .error failure => ∃ e place above first last below,
        failure = .error e ∧ e.trace = [place] ∧
        Source.OnLine cs above first last below ∧
        Landmark cs (above ++ first) (last ++ below) ∧
        place = (LineMap.ofText cs).position (byteSize (above ++ first)) ∧
        place = ⟨above.count '\n' + 1, byteSize first + 1⟩ ∧
        (LineMap.ofText cs).lineText place.line = first ++ last ∧
        ((ofError e).withSource source).plain = page
          (["error[" ++ e.fault.code ++ "]: " ++ e.message,
            "  --> " ++ toString place.line ++ ":" ++ toString place.column] ++
            pointing place.line (first ++ last) first.length "here") := by
  intro cs
  obtain ⟨acts, r, -, hresult, hr⟩ := compile_traced source
  rw [hresult]
  cases r with
  | ok root s => trivial
  | error failure s =>
    obtain ⟨e, place, rfl, ⟨before, after, hlandmark, hplace⟩, hcause⟩ := hr.reason
    obtain ⟨above, first, last, below, rfl, rfl, hline⟩ := Source.exists_onLine before after
    rw [← hlandmark.eq_append] at hline
    have hposition := hplace.trans (hline.position_eq_of_fits hfits.normalize)
    have hlineText : (LineMap.ofText cs).lineText place.line = first ++ last :=
      hposition ▸ hline.lineText_eq
    have htrace : e.trace = [place] := by
      rcases hcause with ⟨cause, rfl⟩ | ⟨cause, rfl⟩ <;> rfl
    have hfault : ∀ cause, e.fault ≠ .runtime cause := by
      rcases hcause with ⟨cause, rfl⟩ | ⟨cause, rfl⟩ <;> exact fun _ h => nomatch h
    have hindent : caretIndent (first ++ last) place.column = first.length :=
      hposition ▸ caretIndent_append first last
    have hpage := plain_ofError hfault htrace source
    dsimp only at hpage
    rw [hlineText, hindent] at hpage
    exact ⟨e, place, above, first, last, below, rfl, htrace, hline, hlandmark, hplace, hposition,
      hlineText, hpage⟩

/-! ## A caret behind its line -/

/-- An illegal character on the only line of a source, behind a comment with a character of four
bytes and `n` blanks. -/
def behindComment (n : Nat) : List Char :=
  '/' :: '*' :: ('😀' :: List.replicate n ' ' ++ ['*', '/', '@'])

theorem length_behindComment (n : Nat) : (behindComment n).length = n + 6 := by
  simp [behindComment]

theorem newline_notMem_behindComment (n : Nat) : '\n' ∉ behindComment n := by
  simp [behindComment]

/-- No part of the source ends behind its third byte. -/
theorem slice?_behindComment (n : Nat) : slice? (behindComment n) 0 3 = none := by
  rfl

/-- The source is not compiled for its last character. -/
theorem compile_behindComment (n : Nat) :
    compile (String.ofList (behindComment n)) =
      .error (.error (.lexical (.invalidCharacter '@') (Position.wrapped ⟨1, n + 9⟩))) := by
  have hcs : Source.normalize (String.ofList (behindComment n)).toList = behindComment n := by
    rw [String.toList_ofList, normalize_eq (by simp [behindComment])]
  have hcomment : ¬['*', '/'] <:+: '😀' :: List.replicate n ' ' := by
    intro h
    have := h.subset List.mem_cons_self
    simp at this
  have hlongest := longest_blockComment hcomment ['@']
  generalize hfront : '/' :: '*' :: ('😀' :: List.replicate n ' ' ++ ['*', '/']) = front
  have hsplit : behindComment n = front ++ ['@'] := by simp [behindComment, ← hfront]
  have hsize : byteSize front = n + 8 := by
    have hblanks : byteSize (List.replicate n ' ') = n := (byteSize_replicate n ' ').trans n.mul_one
    have hrest : byteSize ['*', '/'] = 2 := rfl
    have hstart : byteSize ['/', '*', '😀'] = 6 := rfl
    have hcut : front = ['/', '*', '😀'] ++ (List.replicate n ' ' ++ ['*', '/']) := hfront.symm
    rw [hcut, byteSize_append, byteSize_append, hblanks, hrest, hstart]
    omega
  have hnewline : '\n' ∉ front := by simp [← hfront]
  have hscan : scan (front ++ ['@']) 0 = .invalid '@' (byteSize front) [] := by
    have hrule : longest (front ++ ['@']) = some (.blockComment, front.length) := by
      simpa [← hfront] using hlongest
    have hlast : longest ['@'] = none := by decide
    rw [scan_skipped (by simp [← hfront]) hrule rfl, Nat.zero_add]
    unfold scan
    rw [hlast]
  have hplace := LineMap.position_eq_behind front ['@']
  rw [Position.behind, Source.lastLine_eq_self hnewline, List.count_eq_zero.2 hnewline, hsize,
    ← hsplit] at hplace
  rw [← hsplit, hsize] at hscan
  have hnext : (Lexer.ofText (behindComment n)).next.1 =
      .error (.lexical (.invalidCharacter '@') (Position.wrapped ⟨1, n + 9⟩)) := by
    simp only [Lexer.next, Lexer.fetch, Lexer.ofText, Bool.false_eq_true, if_false, hscan]
    exact congrArg (fun place => Except.error (ScriptError.lexical _ place)) hplace
  rw [← hcs] at hnext
  exact compile_of_next_error (Prod.ext hnext rfl)

/-- The caret stands behind the five characters of a comment, which have eight bytes. -/
theorem caret_stands_below_its_character_behindComment :
    let cs := behindComment 0
    let source := String.ofList cs
    Source.Fits source.toList ∧ ∃ e, compile source = .error (.error e) ∧ e.trace = [⟨1, 9⟩] ∧
      ((ofError e).withSource source).plain = page
        (["error[" ++ e.fault.code ++ "]: " ++ e.message, "  --> 1:9"] ++ pointing 1 cs 5 "here") := by
  intro cs source
  have hcompile := compile_behindComment 0
  have hcs : Source.normalize source.toList = cs := by decide
  have hfits : Source.Fits source.toList := by
    unfold Source.Fits
    decide
  have hreport := caret_stands_below_its_character source hfits
  rw [hcs, hcompile] at hreport
  obtain ⟨e, place, above, first, last, below, he, htrace, -, -, -, hplace, hline, hpage⟩ := hreport
  obtain rfl := Failure.error.inj he
  obtain rfl : (⟨1, 9⟩ : Position) = place := (List.cons.inj htrace).1
  have hfirst : first = ['/', '*', '😀', '*', '/'] := by
    have hslice := slice?_append [] first last
    have hsize : byteSize first + 1 = 9 := (congrArg Position.column hplace).symm
    have hlineText : (LineMap.ofText cs).lineText 1 = cs := by decide
    rw [List.nil_append, ← hline, hlineText, byteSize_nil, Nat.succ.inj hsize] at hslice
    exact (Option.some.inj (hslice.symm.trans (by decide)))
  rw [← hline, hfirst] at hpage
  exact ⟨hfits, _, hcompile, rfl, hpage⟩

/-- If the position of the error wraps around into the character of four bytes, the caret stands
behind the whole line. -/
theorem report_behindComment {n : Nat} (hwrapped : Position.wrapped ⟨1, n + 9⟩ = ⟨1, 4⟩) :
    let cs := behindComment n
    let source := String.ofList cs
    ∃ e, compile source = .error (.error e) ∧ e.trace = [⟨1, 4⟩] ∧
      Source.normalize source.toList = cs ∧ (LineMap.ofText cs).lineText 1 = cs ∧
      ['/', '*', '😀'] <+: cs ∧ cs.length = n + 6 ∧
      ((ofError e).withSource source).plain = page
        (["error[" ++ e.fault.code ++ "]: " ++ e.message, "  --> 1:4"] ++
          pointing 1 cs cs.length "here") := by
  intro cs source
  have hcs : Source.normalize source.toList = cs := by
    rw [String.toList_ofList, normalize_eq (by simp [cs, behindComment])]
  have hline : (LineMap.ofText cs).lineText 1 = cs := by
    have honline : Source.OnLine cs [] [] cs [] :=
      ⟨by simp, .inl rfl, .inl rfl, newline_notMem_behindComment n⟩
    exact honline.lineText_eq
  have hcompile := compile_behindComment n
  rw [hwrapped] at hcompile
  have htrace : (ScriptError.lexical (.invalidCharacter '@') ⟨1, 4⟩).trace = [⟨1, 4⟩] := rfl
  have hfault : ∀ cause,
      (ScriptError.lexical (.invalidCharacter '@') ⟨1, 4⟩).fault ≠ .runtime cause :=
    fun cause h => by cases h
  have hpage := plain_ofError hfault htrace source
  dsimp only at hpage
  rw [hcs, hline, caretIndent_inside (slice?_behindComment n)] at hpage
  exact ⟨_, hcompile, rfl, hcs, hline, ⟨_, rfl⟩, length_behindComment n, hpage⟩

/-- At a place behind 4 GiB, the column is that of a byte inside of the third character of its line.
The caret stands behind the whole line and not below that character. -/
theorem caret_stands_behind_line :
    let cs := behindComment (2 ^ 32 - 5)
    let source := String.ofList cs
    ∃ e, compile source = .error (.error e) ∧ e.trace = [⟨1, 4⟩] ∧
      Source.normalize source.toList = cs ∧ (LineMap.ofText cs).lineText 1 = cs ∧
      ['/', '*', '😀'] <+: cs ∧ cs.length = 2 ^ 32 - 5 + 6 ∧
      ((ofError e).withSource source).plain = page
        (["error[" ++ e.fault.code ++ "]: " ++ e.message, "  --> 1:4"] ++
          pointing 1 cs cs.length "here") :=
  report_behindComment (by decide)

end Diagnostic

end ScriptEngine
