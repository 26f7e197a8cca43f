import ScriptEngine.Number.Reader

/-!
# Options of the command line

Arguments are read from left to right into a draft, and the first one that is wrong, or asks for
the help or the version, ends the reading. A setting takes its value from the same argument or
from the next one, which must not look like an option itself. Nothing can be given twice. Behind
`--` every argument is a file.

A draft is complete if it has exactly one source: a file or a text.
-/

namespace ScriptEngine

/-- Where a script comes from. -/
inductive Input where
  | file (name : String)
  | text (source : String)
  deriving DecidableEq, Inhabited

/-- A run that the command line asks for. -/
structure Invocation where
  input : Input
  /-- The file with the limits of the engine. -/
  config : Option String := none
  maxCallDepth : Option Nat := none
  maxArrayLength : Option Nat := none
  /-- Print the result and any error as JSON. -/
  json : Bool := false
  /-- Never colour errors. -/
  noColour : Bool := false
  /-- Print the code instead of running it. -/
  dump : Bool := false
  deriving DecidableEq, Inhabited

/-- Why the arguments do not lead to a run. -/
inductive Refusal where
  | help
  | version
  /-- The arguments are wrong. -/
  | usage
  deriving DecidableEq, Inhabited

namespace Invocation

/-- The options that take a value. -/
inductive Setting where
  | eval
  | config
  | maxCallDepth
  | maxArrayLength
  deriving DecidableEq, Inhabited

/-- The options that take none. -/
inductive Switch where
  | json
  | noColour
  | dump
  | help
  | version
  deriving DecidableEq, Inhabited

/-- The setting with a long name. -/
def setting? : String → Option Setting
  | "eval" => some .eval
  | "config" => some .config
  | "max-call-depth" => some .maxCallDepth
  | "max-array-length" => some .maxArrayLength
  | _ => none

/-- The switch with a long name. -/
def switch? : String → Option Switch
  | "json" => some .json
  | "no-color" => some .noColour
  | "dump" => some .dump
  | "help" => some .help
  | "version" => some .version
  | _ => none

/-- What the arguments so far have given. -/
structure Draft where
  file : Option String := none
  eval : Option String := none
  config : Option String := none
  maxCallDepth : Option Nat := none
  maxArrayLength : Option Nat := none
  json : Bool := false
  noColour : Bool := false
  dump : Bool := false
  deriving DecidableEq, Inhabited

/-- The number that a limit is: at most 64 bits, with an optional plus sign. -/
def limitOf (value : String) : Except Refusal Nat :=
  let ds := match value.toList with
    | '+' :: ds => ds
    | ds => ds
  if ds.isEmpty || !ds.all Char.isDigit then .error .usage
  else if digitsValue ds < UInt64.size then .ok (digitsValue ds) else .error .usage

/-- The name of a file, which cannot be empty. -/
def fileName (value : String) : Except Refusal String :=
  if value = "" then .error .usage else .ok value

/-- Fills a place of the draft that must be empty before. -/
def fill {α : Type} (place : Option α) (value : Except Refusal α) : Except Refusal (Option α) :=
  if place.isSome then .error .usage else some <$> value

namespace Draft

/-- Gives a setting its value. -/
def give (d : Draft) (value : String) : Setting → Except Refusal Draft
  | .eval => do return { d with eval := ← fill d.eval (.ok value) }
  | .config => do return { d with config := ← fill d.config (fileName value) }
  | .maxCallDepth => do return { d with maxCallDepth := ← fill d.maxCallDepth (limitOf value) }
  | .maxArrayLength => do
    return { d with maxArrayLength := ← fill d.maxArrayLength (limitOf value) }

/-- Turns a switch on. -/
def turnOn (d : Draft) : Switch → Except Refusal Draft
  | .json => if d.json then .error .usage else .ok { d with json := true }
  | .noColour => if d.noColour then .error .usage else .ok { d with noColour := true }
  | .dump => if d.dump then .error .usage else .ok { d with dump := true }
  | .help => .error .help
  | .version => .error .version

/-- Names the file to run. -/
def addFile (d : Draft) (name : String) : Except Refusal Draft := do
  return { d with file := ← fill d.file (fileName name) }

/-- The run that a complete draft asks for. -/
def finish (d : Draft) : Except Refusal Invocation :=
  let run (input : Input) : Invocation :=
    { input, config := d.config, maxCallDepth := d.maxCallDepth
      maxArrayLength := d.maxArrayLength, json := d.json, noColour := d.noColour, dump := d.dump }
  match d.file, d.eval with
  | some name, none => .ok (run (.file name))
  | none, some source => .ok (run (.text source))
  | _, _ => .error .usage

end Draft

/-- What one argument is. -/
inductive Argument where
  /-- Everything behind is a file. -/
  | ending
  | file (name : String)
  | setting (s : Setting) (attached : Option String)
  | switch (s : Switch)
  | unknown
  deriving DecidableEq, Inhabited

/-- Reads an argument behind its two dashes. -/
def longArgument (body : List Char) : Argument :=
  let name := String.ofList (body.takeWhile (· ≠ '='))
  let attached := match body.dropWhile (· ≠ '=') with
    | _ :: value => some (String.ofList value)
    | [] => none
  match setting? name, switch? name, attached with
  | some s, _, attached => .setting s attached
  | none, some s, none => .switch s
  | _, _, _ => .unknown

/-- Reads an argument behind its one dash: the letter, and what is attached to it. -/
def shortArgument (letter : Char) (attached : List Char) : Argument :=
  if letter = 'e' then
    .setting .eval <| match attached with
      | [] => none
      | '=' :: value => some (String.ofList value)
      | value => some (String.ofList value)
  else if letter = 'h' then .switch .help
  else if letter = 'V' then .switch .version
  else .unknown

/-- Reads one argument. A single dash is a file. -/
def argumentOf (arg : String) : Argument :=
  match arg.toList with
  | ['-', '-'] => .ending
  | '-' :: '-' :: body => longArgument body
  | '-' :: letter :: attached => shortArgument letter attached
  | _ => .file arg

/-- Whether an argument can be the value of the setting before it. -/
def isValue (arg : String) : Bool :=
  match argumentOf arg with
  | .file _ => true
  | _ => false

/-- Reads arguments into a draft. -/
def readArguments (d : Draft) : List String → Except Refusal Draft
  | [] => .ok d
  | arg :: args =>
    match argumentOf arg with
    | .ending => args.foldlM Draft.addFile d
    | .file name => do readArguments (← d.addFile name) args
    | .switch s => do readArguments (← d.turnOn s) args
    | .setting s (some value) => do readArguments (← d.give value s) args
    | .setting s none =>
      match args with
      | value :: args =>
        if isValue value then do readArguments (← d.give value s) args else .error .usage
      | [] => .error .usage
    | .unknown => .error .usage

/-- Reads the arguments of the command line. -/
def parse (args : List String) : Except Refusal Invocation := do
  (← readArguments {} args).finish

end Invocation

end ScriptEngine
