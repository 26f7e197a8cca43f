import ScriptEngine.Diagnostic

/-!
# Diagnostics on a terminal

The report as text, with the line of source that it is about and a caret below the column. With
colours, parts of the text are set off by a control sequence in front of them and a reset behind them.
-/

namespace ScriptEngine

/-- The ways to set off a part of a text. -/
inductive Style where
  | bold
  | boldRed
  | cyan
  | dim
  deriving DecidableEq, Inhabited

namespace Style

/-- The parameters of the control sequence of a style. -/
def code : Style → String
  | .bold => "1"
  | .boldRed => "1;31"
  | .cyan => "36"
  | .dim => "2"

/-- A text that is set off, if there are colours. -/
def paint (useColour : Bool) (style : Style) (text : String) : String :=
  if useColour then "\x1b[" ++ style.code ++ "m" ++ text ++ "\x1b[0m" else text

end Style

namespace Diagnostic

variable (useColour : Bool)

/-- The first line: the severity, the code and the message. -/
def renderHead (d : Diagnostic) : String :=
  let severity := match d.severity with
    | .error => Style.boldRed.paint useColour "error"
    | .warning => Style.bold.paint useColour (Style.cyan.paint useColour "warning")
  let head := match d.code with
    | some code => severity ++ "[" ++ code ++ "]"
    | none => severity
  head ++ ": " ++ Style.bold.paint useColour d.message ++ "\n"

/-- The line with the primary position. -/
def renderArrow (p : Position) : String :=
  "  " ++ Style.cyan.paint useColour "-->" ++ " " ++ toString p.line ++ ":" ++ toString p.column ++
    "\n"

/-- How far a caret is indented below a line, the column counting bytes: by the characters before
the column, or by the whole line if the column does not start a character. -/
def caretIndent (line : List Char) (column : Nat) : Nat :=
  ((Text.slice? line 0 (column - 1)).getD line).length

/-- The excerpt of the source: the line of a label between two empty ones, with the caret and the
message of the label below it. -/
def renderExcerpt (label : Label) (source : List Char) : String :=
  let line := (LineMap.ofText source).lineText label.position.line
  let number := toString label.position.line
  let gutter := number.length
  let pipe := Style.cyan.paint useColour "|"
  let pad := "".pushn ' ' gutter
  let aligned := Style.cyan.paint useColour ("".pushn ' ' (gutter - number.length) ++ number)
  let indent := "".pushn ' ' (caretIndent line label.position.column)
  let caret := Style.boldRed.paint useColour "^"
  let pointer :=
    if label.message = "" then pad ++ " " ++ pipe ++ " " ++ indent ++ caret ++ "\n"
    else pad ++ " " ++ pipe ++ " " ++ indent ++ caret ++ " " ++
      Style.boldRed.paint useColour label.message ++ "\n"
  pad ++ " " ++ pipe ++ "\n" ++
    (aligned ++ " " ++ pipe ++ " " ++ String.ofList line ++ "\n") ++
    pointer ++
    (pad ++ " " ++ pipe ++ "\n")

/-- A line below the excerpt. -/
def renderFoot (text : String) : String :=
  "  " ++ Style.dim.paint useColour "=" ++ " " ++ text ++ "\n"

/-- The report as text. -/
def render (d : Diagnostic) : String :=
  let arrow := match d.primary? with
    | some label => renderArrow useColour label.position
    | none => ""
  let excerpt := match d.primary?, d.source with
    | some label, some source => renderExcerpt useColour label source
    | _, _ => ""
  let others := d.secondary.map fun l => renderFoot useColour
    (toString l.position.line ++ ":" ++ toString l.position.column ++ " " ++ l.message)
  let notes := d.notes.map fun note => renderFoot useColour ("note: " ++ note)
  let suggestion := match d.suggestion with
    | some s => renderFoot useColour ("suggestion: " ++ s)
    | none => ""
  d.renderHead useColour ++ arrow ++ excerpt ++ String.join others ++ String.join notes ++ suggestion

/-- The report without colours. -/
def plain (d : Diagnostic) : String :=
  d.render false

/-- The report with colours. -/
def coloured (d : Diagnostic) : String :=
  d.render true

end Diagnostic

end ScriptEngine
