import ScriptEngine.Diagnostic.Terminal
import ScriptEngine.Proofs.Source.Places

/-!
# Reports as lines of spans

A report is a list of lines, and a line a list of spans: texts that are set off by styles, one inside
of the other, or that stand for themselves. Colours only decide how each span is shown, so that the
report with colours and the one without have the same lines (`render_eq`).
-/

namespace ScriptEngine

/-- A piece of text, set off by styles from the outermost inward. -/
structure Span where
  text : String
  styles : List Style := []
  deriving DecidableEq, Inhabited

namespace Span

/-- A span with or without colours. -/
def paint (useColour : Bool) (s : Span) : String :=
  s.styles.foldr (fun style text => style.paint useColour text) s.text

end Span

namespace Diagnostic

/-! ## Lines -/

/-- The word for the severity. -/
def severitySpan (d : Diagnostic) : Span :=
  match d.severity with
  | .error => { text := "error", styles := [.boldRed] }
  | .warning => { text := "warning", styles := [.bold, .cyan] }

/-- The first line. -/
def headline (d : Diagnostic) : List Span :=
  let code : List Span := match d.code with
    | some code => [{ text := "[" ++ code ++ "]" }]
    | none => []
  d.severitySpan :: code ++ [{ text := ": " }, { text := d.message, styles := [.bold] }]

/-- The line with the primary position. -/
def arrowLine (p : Position) : List Span :=
  [{ text := "  " }, { text := "-->", styles := [.cyan] },
    { text := " " ++ toString p.line ++ ":" ++ toString p.column }]

/-- The bar between the gutter and the source. -/
def bar : Span :=
  { text := "|", styles := [.cyan] }

/-- The lines of an excerpt. -/
def excerpt (label : Label) (source : List Char) : List (List Span) :=
  let number := toString label.position.line
  let line := (LineMap.ofText source).lineText label.position.line
  let pad : Span := { text := "".pushn ' ' number.length ++ " " }
  let indent : Span := { text := " " ++ "".pushn ' ' (caretIndent line label.position.column) }
  let caret : Span := { text := "^", styles := [.boldRed] }
  let message : List Span :=
    if label.message = "" then []
    else [{ text := " " }, { text := label.message, styles := [.boldRed] }]
  [[pad, bar],
    [{ text := number, styles := [.cyan] }, { text := " " }, bar,
      { text := " " ++ String.ofList line }],
    [pad, bar, indent, caret] ++ message,
    [pad, bar]]

/-- A line below the excerpt. -/
def footLine (text : String) : List Span :=
  [{ text := "  " }, { text := "=", styles := [.dim] }, { text := " " ++ text }]

/-- The lines of a report. -/
def lines (d : Diagnostic) : List (List Span) :=
  let place := match d.primary? with
    | some label =>
      arrowLine label.position :: match d.source with
        | some source => excerpt label source
        | none => []
    | none => []
  let others := d.secondary.map fun l =>
    footLine (toString l.position.line ++ ":" ++ toString l.position.column ++ " " ++ l.message)
  let notes := d.notes.map fun note => footLine ("note: " ++ note)
  let suggestion := d.suggestion.toList.map fun s => footLine ("suggestion: " ++ s)
  d.headline :: place ++ others ++ notes ++ suggestion

/-! ## The text of a report -/

variable {useColour : Bool}

/-- A line of spans as text. -/
def lineText (useColour : Bool) (line : List Span) : String :=
  String.join (line.map (Span.paint useColour)) ++ "\n"

/-- Lines of spans as text. -/
def pageText (useColour : Bool) (ls : List (List Span)) : String :=
  String.join (ls.map (lineText useColour))

theorem toList_pageText (ls : List (List Span)) : (pageText useColour ls).toList =
    ls.flatMap fun line => line.flatMap (fun s => (s.paint useColour).toList) ++ ['\n'] := by
  simp [pageText, lineText, String.toList_join, List.flatMap_map]

theorem pageText_append (ls ls' : List (List Span)) :
    pageText useColour (ls ++ ls') = pageText useColour ls ++ pageText useColour ls' := by
  rw [← String.toList_inj, String.toList_append, toList_pageText, toList_pageText, toList_pageText,
    List.flatMap_append]

theorem renderHead_eq (d : Diagnostic) :
    d.renderHead useColour = pageText useColour [d.headline] := by
  rw [← String.toList_inj, toList_pageText]
  rcases hcode : d.code with _ | code <;> rcases hseverity : d.severity <;>
    simp [renderHead, headline, severitySpan, hcode, hseverity, Span.paint]

theorem renderArrow_eq (p : Position) :
    renderArrow useColour p = pageText useColour [arrowLine p] := by
  rw [← String.toList_inj, toList_pageText]
  simp [renderArrow, arrowLine, Span.paint]

theorem renderExcerpt_eq (label : Label) (source : List Char) :
    renderExcerpt useColour label source = pageText useColour (excerpt label source) := by
  have hpad : "".pushn ' ' 0 = "" := rfl
  rw [← String.toList_inj, toList_pageText]
  by_cases hmessage : label.message = "" <;>
    simp [renderExcerpt, excerpt, bar, hmessage, hpad, Span.paint]

theorem renderFoot_eq (text : String) :
    renderFoot useColour text = pageText useColour [footLine text] := by
  rw [← String.toList_inj, toList_pageText]
  simp [renderFoot, footLine, Span.paint]

theorem join_renderFoot {α : Type} (items : List α) (text : α → String) :
    String.join (items.map fun item => renderFoot useColour (text item)) =
      pageText useColour (items.map fun item => footLine (text item)) := by
  rw [← String.toList_inj, toList_pageText, String.toList_join, List.flatMap_map, List.flatMap_map]
  refine congrArg (List.flatMap · items) (funext fun item => ?_)
  rw [renderFoot_eq, toList_pageText, List.flatMap_singleton]

/-- A report is its lines with each span shown with or without colours. -/
theorem render_eq (d : Diagnostic) : d.render useColour = pageText useColour d.lines := by
  have hempty : "" = pageText useColour [] := rfl
  unfold render lines
  dsimp only
  rw [renderHead_eq, join_renderFoot, join_renderFoot]
  rcases hprimary : d.primary? with _ | label <;> rcases hsource : d.source with _ | source <;>
    rcases hsuggestion : d.suggestion with _ | suggestion <;>
      simp only [renderArrow_eq, renderExcerpt_eq, renderFoot_eq, hempty, ← pageText_append,
        Option.toList_none, Option.toList_some, List.map_nil, List.map_cons, List.cons_append,
        List.nil_append, List.append_nil, List.append_assoc]

/-- The report without colours. -/
theorem plain_eq (d : Diagnostic) : d.plain = pageText false d.lines :=
  d.render_eq

end Diagnostic

end ScriptEngine
