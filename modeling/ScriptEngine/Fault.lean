import ScriptEngine.Token

/-!
# Faults and script errors

A fault is the cause of an error, with what its message needs. A script error is a fault and its
trace: the positions it passed through, innermost first. A fault of the text carries the one
position it was found at; a fault of a run gains one position for every frame that it unwinds.
-/

namespace ScriptEngine

/-- The kinds of values that messages tell apart. -/
inductive ValueKind where
  | void
  | undefined
  | number
  | string
  | array
  | dictionary
  | function
  | property
  | closure
  | classObject
  deriving DecidableEq, Inhabited

def ValueKind.name : ValueKind → String
  | .void => "void"
  | .undefined => "undefined"
  | .number => "number"
  | .string => "string"
  | .array => "array"
  | .dictionary => "dictionary"
  | .function => "function"
  | .property => "property"
  | .closure => "closure"
  | .classObject => "class"

/-! ## Causes -/

/-- What can be wrong with the characters of a source. -/
inductive LexicalFault where
  | invalidCharacter (c : Char)
  | malformedNumber (text : String)
  | unclosedString
  | illegalHexEscape
  | illegalEscape (c : Char)
  deriving DecidableEq, Inhabited

def LexicalFault.message : LexicalFault → String
  | .invalidCharacter c => "invalid character `" ++ c.toString ++ "`"
  | .malformedNumber text => "malformed number `" ++ text ++ "`"
  | .unclosedString => "string not ended"
  | .illegalHexEscape => "illegal \\x sequence"
  | .illegalEscape c => "illegal escape sequence `\\" ++ c.toString ++ "`"

/-- What the grammar wants at a place. -/
inductive Expectation where
  /-- One certain token; messages put its description into quotes of its own. -/
  | token (kind : Token.Kind)
  | sign (mark : Mark)
  | commaOr (mark : Mark)
  | memberName
  | parameterName
  | variableName
  deriving DecidableEq, Inhabited

def Expectation.describe : Expectation → String
  | .token kind => "`" ++ kind.describe ++ "`"
  | .sign mark => "`" ++ mark.spelling ++ "`"
  | .commaOr mark => "`,` or `" ++ mark.spelling ++ "`"
  | .memberName => "member name"
  | .parameterName => "parameter name"
  | .variableName => "variable name"

/-- What can be wrong with the order of tokens. -/
inductive GrammarFault where
  | unexpected (kind : Token.Kind)
  | expected (what : Expectation) (found : Token.Kind)
  | statementInExpression (kind : Token.Kind)
  | unsupported (kind : Token.Kind)
  | duplicateParameter (name : String)
  | defaultsLast
  | notAssignable
  | outsideLoop (word : Keyword)
  deriving DecidableEq, Inhabited

def GrammarFault.message : GrammarFault → String
  | .unexpected kind => "unexpected " ++ kind.describe
  | .expected what found => "expected " ++ what.describe ++ " but found " ++ found.describe
  | .statementInExpression kind =>
    "`" ++ kind.describe ++ "` cannot be used inside an expression"
  | .unsupported kind => "`" ++ kind.describe ++ "` is not supported"
  | .duplicateParameter name => "duplicate parameter name `" ++ name ++ "`"
  | .defaultsLast => "default parameters must be placed last"
  | .notAssignable => "operand must be a variable"
  | .outsideLoop word => "`" ++ word.spelling ++ "` outside of a loop"

/-- What can go wrong while code runs. -/
inductive RuntimeFault where
  -- values
  | notANumber (kind : ValueKind)
  | notCallable (kind : ValueKind)
  | unreadableMember (name : String) (kind : ValueKind)
  | unwritableMember (name : String) (kind : ValueKind)
  | undeletableMember (name : String) (kind : ValueKind)
  | missingMember (name : String) (owner : String)
  | arrayIndex (index : Int)
  | arrayTooLong (cap : Nat)
  | stringIndex (index : Int)
  -- properties, scopes and classes
  | noGetter
  | noSetter
  | slotOutOfRange
  | undeclared (name : String)
  | localDeletion (name : String)
  | notInstantiable (name : String)
  -- frames
  | callDepth
  | registerOutside (register : Int)
  | constantOutside (index : Int)
  | nameExpected (kind : ValueKind)
  | jumpTarget (target : Int)
  | notAClass (name : String)
  | uninstantiableKind (kind : ValueKind)
  | divisionByZero
  | emptyCharacter
  | characterCode (code : Int)
  | templateExpected
  | functionToBindExpected
  -- built-in members
  | argumentCount (name : String) (wanted given : Nat)
  | stringsOnly (name : String)
  | arraysOnly (name : String)
  | substringStart (start : Int)
  | substringLength (length : Int)
  | formatArgument (placeholder : String)
  /-- A text is not cut between two characters. -/
  | offBoundary (start stop : Nat)
  | negativeLength
  | insertIndex (index : Int)
  | eraseIndex (index : Int)
  | selfContaining
  | sortMode (mode : String)
  -- the host
  | notRegistered (name : String)
  | hostObjectExpected (kind : ValueKind)
  | noHostData (name : String)
  | otherHostType (name : String)
  | hostRefused
  | constructorRefused
  deriving DecidableEq, Inhabited

def RuntimeFault.message : RuntimeFault → String
  | .notANumber kind => "cannot convert " ++ kind.name ++ " to number"
  | .notCallable kind => kind.name ++ " is not callable"
  | .unreadableMember name kind => "cannot read member `" ++ name ++ "` of " ++ kind.name
  | .unwritableMember name kind => "cannot set member `" ++ name ++ "` of " ++ kind.name
  | .undeletableMember name kind => "cannot delete member `" ++ name ++ "` of " ++ kind.name
  | .missingMember name owner => "member `" ++ name ++ "` does not exist in " ++ owner
  | .arrayIndex index => "array index " ++ toString index ++ " out of range"
  | .arrayTooLong cap => "array size exceeds " ++ toString cap
  | .stringIndex index => "string index " ++ toString index ++ " out of range"
  | .noGetter => "property has no getter"
  | .noSetter => "property has no setter"
  | .slotOutOfRange => "register slot out of range"
  | .undeclared name => "variable `" ++ name ++ "` is not declared"
  | .localDeletion name => "cannot delete local variable `" ++ name ++ "`"
  | .notInstantiable name => "class " ++ name ++ " cannot be instantiated"
  | .callDepth => "call stack overflow"
  | .registerOutside register => "register " ++ toString register ++ " outside the frame"
  | .constantOutside index => "constant " ++ toString index ++ " out of range"
  | .nameExpected kind => "expected a name constant, found " ++ kind.name
  | .jumpTarget target => "invalid jump target " ++ toString target
  | .notAClass name => "`" ++ name ++ "` is not a class"
  | .uninstantiableKind kind => "cannot instantiate " ++ kind.name
  | .divisionByZero => "division by zero"
  | .emptyCharacter => "`#` needs a non-empty string"
  | .characterCode code => toString code ++ " is not a valid character code"
  | .templateExpected => "function template expected"
  | .functionToBindExpected => "only functions can bind a closure"
  | .argumentCount name wanted given =>
    name ++ ": expected " ++ toString wanted ++ " args, got " ++ toString given
  | .stringsOnly name => name ++ ": only strings have this method"
  | .arraysOnly name => name ++ ": only arrays have this method"
  | .substringStart start => "substring: start " ++ toString start ++ " out of range"
  | .substringLength length => "substring: length " ++ toString length ++ " out of range"
  | .formatArgument placeholder => "format: no argument for " ++ placeholder
  | .offBoundary start stop =>
    "bytes " ++ toString start ++ ".." ++ toString stop ++ " are not at character boundaries"
  | .negativeLength => "length cannot be negative"
  | .insertIndex index => "insert: index " ++ toString index ++ " out of range"
  | .eraseIndex index => "erase: index " ++ toString index ++ " out of range"
  | .selfContaining => "deepcopy: structure contains itself"
  | .sortMode mode => "sort: unknown mode `" ++ mode ++ "`"
  | .notRegistered name => "class " ++ name ++ " is not registered"
  | .hostObjectExpected kind => "expected a host object, found " ++ kind.name
  | .noHostData name => name ++ " carries no host data"
  | .otherHostType name => name ++ " carries a different host type"
  | .hostRefused => "host refused"
  | .constructorRefused => "constructor refused"

/-- The cause of a script error. -/
inductive Fault where
  | lexical (cause : LexicalFault)
  | grammar (cause : GrammarFault)
  | runtime (cause : RuntimeFault)
  deriving DecidableEq, Inhabited

namespace Fault

def message : Fault → String
  | .lexical cause => cause.message
  | .grammar cause => cause.message
  | .runtime cause => cause.message

/-- The short name of the stage that found the fault. -/
def code : Fault → String
  | .lexical _ => "lexical"
  | .grammar _ => "syntax"
  | .runtime _ => "runtime"

end Fault

/-! ## Errors -/

/-- A fault and the positions it passed through, innermost first. -/
structure ScriptError where
  fault : Fault
  trace : List Position := []
  deriving DecidableEq, Inhabited

namespace ScriptError

def lexical (cause : LexicalFault) (at_ : Position) : ScriptError :=
  { fault := .lexical cause, trace := [at_] }

def grammar (cause : GrammarFault) (at_ : Position) : ScriptError :=
  { fault := .grammar cause, trace := [at_] }

def runtime (cause : RuntimeFault) : ScriptError :=
  { fault := .runtime cause }

/-- The error after it has unwound a frame that was at `p`. -/
def unwind (e : ScriptError) (p : Position) : ScriptError :=
  { e with trace := e.trace ++ [p] }

/-- The innermost position. -/
def position? (e : ScriptError) : Option Position :=
  e.trace.head?

def message (e : ScriptError) : String :=
  e.fault.message

/-- The stage that found the fault and the message. -/
def summary (e : ScriptError) : String :=
  e.fault.code ++ " error: " ++ e.message

/-- One line for each position of the trace, innermost first. -/
def backtrace (e : ScriptError) : String :=
  "\n".intercalate <| e.trace.map fun p =>
    "at line " ++ toString p.line ++ ", column " ++ toString p.column

end ScriptError

/-- How a computation of the engine can end without a result: with a script error, or because
the fuel that bounds its length is used up. -/
inductive Failure where
  | error (e : ScriptError)
  | exhausted
  deriving DecidableEq, Inhabited

/-- The failure of a run that has not left a frame yet. -/
def Failure.runtime (cause : RuntimeFault) : Failure :=
  .error (.runtime cause)

end ScriptEngine
