import ScriptEngine.CommandLine

/-!
# The program

Reads the files that the arguments name, runs the command line on them, and prints the report.
Lines that the script logged go to the second output, unless the variable `TJS_LOG` turns them
off.
-/

namespace ScriptEngine

/-- The content of a file. -/
def loadFile (name : String) : IO (Except ReadFault String) := do
  try
    let bytes ← IO.FS.readBinFile name
    match String.fromUTF8? bytes with
    | some text => return .ok text
    | none => return .error .notText
  catch
  | .permissionDenied .. => return .error .denied
  | .inappropriateType .. => return .error .isDirectory
  | _ => return .error .missing

/-- The contents of the files that the arguments name. -/
def loadFiles (args : List String) : IO Files := do
  let names := match Invocation.parse args with
    | .ok i => i.fileNames
    | .error _ => []
  let contents ← names.mapM fun name => return (name, ← loadFile name)
  return fun name => (contents.lookup name).getD (.error .missing)

end ScriptEngine

open ScriptEngine

def main (args : List String) : IO UInt32 := do
  let stdout ← IO.getStdout
  let stderr ← IO.getStderr
  let files ← loadFiles args
  let r := commandLine (Nat.pow 2 62) args (← stderr.isTty) files
  unless (← IO.getEnv "TJS_LOG") = some "off" do
    for line in r.log do stderr.putStrLn line
  stdout.putStr r.stdout
  stderr.putStr r.stderr
  return r.code.toUInt32
