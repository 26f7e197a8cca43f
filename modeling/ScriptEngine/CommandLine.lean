import ScriptEngine.Chunk.Listing
import ScriptEngine.CommandLine.Options
import ScriptEngine.Diagnostic.Terminal
import ScriptEngine.Embedding
import ScriptEngine.Limits

/-!
# The command line

What a run of the program prints and how it ends, as a function of the arguments and of what the
files hold. The source is read before the limits, so a source that cannot be read is reported
first. Errors go to the second output as diagnostics, as JSON if that was asked for.
-/

namespace ScriptEngine

/-- Why a file cannot be read. -/
inductive ReadFault where
  | missing
  | denied
  | notDirectory
  | isDirectory
  | notText
  deriving DecidableEq, Inhabited

def ReadFault.message : ReadFault → String
  | .missing => "No such file or directory (os error 2)"
  | .denied => "Permission denied (os error 13)"
  | .notDirectory => "Not a directory (os error 20)"
  | .isDirectory => "Is a directory (os error 21)"
  | .notText => "stream did not contain valid UTF-8"

/-- What the files hold. -/
abbrev Files := String → Except ReadFault String

/-- How a run of the program ends. -/
structure Report where
  code : Nat
  stdout : String := ""
  stderr : String := ""
  /-- What the script logged. -/
  log : List String := []
  deriving DecidableEq, Inhabited

def versionText : String :=
  "tjs 0.1.0\n"

def helpText : String :=
  "\n".intercalate
    ["An embeddable TJS-subset scripting engine with a register bytecode VM",
      "",
      "Usage: tjs [OPTIONS] [FILE]",
      "",
      "Arguments:",
      "  [FILE]  Script file to run",
      "",
      "Options:",
      "  -e, --eval <EVAL>                          Source text to run instead of a file",
      "      --config <CONFIG>                      JSON file with engine limits",
      "      --max-call-depth <MAX_CALL_DEPTH>      ",
      "      --max-array-length <MAX_ARRAY_LENGTH>  ",
      "      --json                                 Print the result and any error as JSON",
      "      --no-color                             Disable ANSI colors in error output",
      "      --dump                                 " ++
        "Print the compiled bytecode instead of running it",
      "  -h, --help                                 Print help",
      "  -V, --version                              Print version",
      ""]

def usageText : String :=
  "error: invalid arguments\n\nUsage: tjs [OPTIONS] [FILE]\n\nFor more information, try '--help'.\n"

namespace Invocation

/-- The names of the files that a run reads. -/
def fileNames (i : Invocation) : List String :=
  match i.input with
  | .file name => name :: i.config.toList
  | .text _ => i.config.toList

/-- Reads a file, or says why it cannot be read. -/
def readFile (files : Files) (name : String) : Except Diagnostic String :=
  match files name with
  | .ok text => .ok text
  | .error fault => .error (.error ("error reading " ++ name ++ ": " ++ fault.message))

/-- The source to run. -/
def source (files : Files) (i : Invocation) : Except Diagnostic String :=
  match i.input with
  | .file name => readFile files name
  | .text source => .ok source

/-- The limits in a file. -/
def readLimits (files : Files) (name : String) : Except Diagnostic Limits := do
  match Limits.ofText? (← readFile files name) with
  | some limits => return limits
  | none => throw (.error ("invalid config " ++ name ++ ": limits expected"))

/-- The limits of the engine: those of the options, else those of the file, else the defaults. -/
def limits (files : Files) (i : Invocation) : Except Diagnostic Limits := do
  let base ← match i.config with
    | some name => readLimits files name
    | none => pure {}
  return { maxArrayLength := i.maxArrayLength.getD base.maxArrayLength
           maxCallDepth := i.maxCallDepth.getD base.maxCallDepth }

/-- The report of a run that failed. The second output is coloured if it is a terminal and
colours are not turned off. -/
def failing (i : Invocation) (terminal : Bool) (d : Diagnostic) : Report where
  code := 1
  stderr :=
    if i.json then d.json.compact ++ "\n"
    else if terminal && !i.noColour then d.coloured
    else d.plain

/-- The diagnostic of a failure in a source. -/
def diagnosticOf (source : String) : Failure → Diagnostic
  | .error e => (Diagnostic.ofError e).withSource source
  | .exhausted => .error "the run takes too many steps"

/-- The code of a source, or why it has none. -/
def dumping (source : String) : Except Diagnostic Report :=
  match compile source with
  | .ok chunk => .ok { code := 0, stdout := Heap.listing {} chunk }
  | .error failure => .error (diagnosticOf source failure)

/-- What is printed for a result: nothing for void, unless JSON was asked for. -/
def resultText (i : Invocation) (h : Heap) (v : Value) : String :=
  if i.json then (Json.fields [("result", h.json v)]).compact ++ "\n"
  else if v.isVoid then ""
  else h.text v ++ "\n"

/-- Runs a source on a new engine. -/
def running (fuel : Nat) (i : Invocation) (terminal : Bool) (limits : Limits) (source : String) :
    Report :=
  match Engine.eval fuel source (Engine.create limits) with
  | .ok v e => { code := 0, stdout := i.resultText e.heap v, log := e.log.toList }
  | .error failure e =>
    { i.failing terminal (diagnosticOf source failure) with log := e.log.toList }

/-- Does what an invocation asks for. -/
def report (fuel : Nat) (i : Invocation) (terminal : Bool) (files : Files) : Report :=
  let result : Except Diagnostic Report := do
    let source ← i.source files
    let limits ← i.limits files
    if i.dump then dumping source else return i.running fuel terminal limits source
  match result with
  | .ok r => r
  | .error d => i.failing terminal d

end Invocation

/-- What a refusal prints. -/
def Refusal.report : Refusal → Report
  | .help => { code := 0, stdout := helpText }
  | .version => { code := 0, stdout := versionText }
  | .usage => { code := 2, stderr := usageText }

/-- Runs the program. -/
def commandLine (fuel : Nat) (args : List String) (terminal : Bool) (files : Files) : Report :=
  match Invocation.parse args with
  | .ok i => i.report fuel terminal files
  | .error refusal => refusal.report

end ScriptEngine
