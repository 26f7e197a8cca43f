import ScriptEngine.Fault
import ScriptEngine.Json

/-!
# Diagnostics

A report for people or tools: a message with its severity, places to point at, and notes. The
report of a script error points at the innermost position of its trace and names the others as
notes.

For tools, the report is a JSON object with its keys in order. The code and the suggestion stand in it
only if there are some.
-/

namespace ScriptEngine

inductive Severity where
  | error
  | warning
  deriving DecidableEq, Inhabited

/-- A place that a diagnostic points at. -/
structure Label where
  position : Position
  message : String
  /-- Whether this is the place that the diagnostic is about. -/
  isPrimary : Bool
  deriving DecidableEq, Inhabited

structure Diagnostic where
  severity : Severity
  message : String
  code : Option String := none
  labels : List Label := []
  notes : List String := []
  suggestion : Option String := none
  /-- The source that the labels point into, with its newlines normalised. -/
  source : Option (List Char) := none
  deriving DecidableEq, Inhabited

namespace Diagnostic

def error (message : String) : Diagnostic :=
  { severity := .error, message }

/-- The diagnostic with the source that its labels point into. -/
def withSource (d : Diagnostic) (source : String) : Diagnostic :=
  { d with source := some (Source.normalize source.toList) }

/-- What may help against a fault. -/
def suggestionFor : Fault → Option String
  | .runtime (.missingMember _ _) =>
    some "check the spelling, or declare the member before reading it"
  | _ => none

/-- The report of a script error. -/
def ofError (e : ScriptError) : Diagnostic where
  severity := .error
  message := e.message
  code := some e.fault.code
  labels := e.trace.head?.toList.map fun position =>
    { position, message := "here", isPrimary := true }
  notes := e.trace.tail.map fun p =>
    "called from line " ++ toString p.line ++ ", column " ++ toString p.column
  suggestion := suggestionFor e.fault

/-- The first primary label. -/
def primary? (d : Diagnostic) : Option Label :=
  d.labels.find? (·.isPrimary)

/-- The other places, in order. -/
def secondary (d : Diagnostic) : List Label :=
  d.labels.filter (!·.isPrimary)

end Diagnostic

/-! ## For tools -/

def Severity.name : Severity → String
  | .error => "error"
  | .warning => "warning"

def Label.json (l : Label) : Json :=
  .fields [("col", .nat l.position.column), ("line", .nat l.position.line),
    ("message", .text l.message), ("primary", .bool l.isPrimary)]

def Diagnostic.json (d : Diagnostic) : Json :=
  .fields <|
    (d.code.toList.map fun code => ("code", .text code)) ++
      [("labels", .array (d.labels.map Label.json)), ("message", .text d.message),
        ("notes", .array (d.notes.map .text)), ("severity", .text d.severity.name)] ++
      (d.suggestion.toList.map fun s => ("suggestion", .text s))

end ScriptEngine
