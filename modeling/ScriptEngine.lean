import ScriptEngine.Access.Member
import ScriptEngine.Chunk.Listing
import ScriptEngine.CommandLine
import ScriptEngine.CommandLine.Options
import ScriptEngine.Compile
import ScriptEngine.Compile.Operator
import ScriptEngine.Compile.State
import ScriptEngine.Diagnostic.Terminal
import ScriptEngine.Embedding
import ScriptEngine.Json.Reader
import ScriptEngine.Limits
import ScriptEngine.Machine
import ScriptEngine.Main
import ScriptEngine.Native.Run
import ScriptEngine.Number.Reader
import ScriptEngine.Number.Text
import ScriptEngine.Proofs.Compile.Grammar
import ScriptEngine.Proofs.Compile.Keeps
import ScriptEngine.Proofs.Declared
import ScriptEngine.Proofs.Expression.Code
import ScriptEngine.Proofs.Expression.Faithful
import ScriptEngine.Proofs.Expression.Instructions
import ScriptEngine.Proofs.Expression.Meaning
import ScriptEngine.Proofs.Expression.Parse
import ScriptEngine.Proofs.Expression.Reading
import ScriptEngine.Proofs.Expression.Runs
import ScriptEngine.Proofs.Expression.Script
import ScriptEngine.Proofs.Expression.Simulation
import ScriptEngine.Proofs.Expression.Targets
import ScriptEngine.Proofs.Expression.Temporaries
import ScriptEngine.Proofs.Expression.Tree
import ScriptEngine.Proofs.Guarded
import ScriptEngine.Proofs.Captured
import ScriptEngine.Proofs.Precedence.Lexemes
import ScriptEngine.Proofs.Precedence.Redundant
import ScriptEngine.Proofs.Precedence.Shape
import ScriptEngine.Proofs.Safety
import ScriptEngine.Proofs.Statement.Segment
import ScriptEngine.Proofs.Tame
import ScriptEngine.Proofs.Tame.Access
import ScriptEngine.Proofs.Tame.Frame
import ScriptEngine.Proofs.Tame.Host
import ScriptEngine.Proofs.Tame.Machine
import ScriptEngine.Proofs.Tame.Native
import ScriptEngine.Proofs.Trace.Relays
import ScriptEngine.Proofs.Trace.Stack
import ScriptEngine.Proofs.WellFormed
import ScriptEngine.Text.Bytes
import ScriptEngine.Text.Case
import ScriptEngine.Text.CharSet
import ScriptEngine.Text.Printable
import ScriptEngine.Text.Search
import ScriptEngine.Token
import ScriptEngine.Token.Lexer
import ScriptEngine.Value.Convert
import ScriptEngine.Proofs.Statement.Drawing
import ScriptEngine.Proofs.Statement.Faithful
import ScriptEngine.Proofs.Depth.Moments
import ScriptEngine.Proofs.Printing.Lexicon
import ScriptEngine.Proofs.Printing.Tokens
import ScriptEngine.Proofs.Reading.Constructs
import ScriptEngine.Proofs.Reading.Order
import ScriptEngine.Proofs.Class.Fields
import ScriptEngine.Proofs.Registers.Kept
import ScriptEngine.Proofs.Class.Members
import ScriptEngine.Proofs.Arrays
import ScriptEngine.Proofs.Assignment.Sound
import ScriptEngine.Proofs.Keys
import ScriptEngine.Proofs.Variables
import ScriptEngine.Proofs.Parameters.Call
import ScriptEngine.Proofs.Lexicon.Tiling
import ScriptEngine.Proofs.Diagnostic.Colours
import ScriptEngine.Proofs.Nesting.Path
import ScriptEngine.Proofs.Sorting
import ScriptEngine.Proofs.Nesting.Clone
import ScriptEngine.Proofs.Results.FallingOff
import ScriptEngine.Proofs.Strings.Search
import ScriptEngine.Proofs.Strings.Split
import ScriptEngine.Proofs.Strings.Format
import ScriptEngine.Proofs.Diagnostic.Caret
import ScriptEngine.Proofs.Source.Index
import ScriptEngine.Proofs.Termination.Ahead
import ScriptEngine.Proofs.Termination.Expressions
import ScriptEngine.Proofs.Termination.Statements
import ScriptEngine.Proofs.Termination.Measure
import ScriptEngine.Proofs.Window.Machine
