import ScriptEngine.Number.Text
import ScriptEngine.Source

/-!
# Tokens

The words and signs of the language. A keyword and a mark each have one spelling; numbers,
strings and identifiers carry what they stand for. `Kind.describe` is how error messages refer
to a token.
-/

namespace ScriptEngine

/-- The reserved words. -/
inductive Keyword where
  | ifWord
  | elseWord
  | new
  | instanceOf
  | typeOf
  | delete
  | int
  | real
  | string
  | switch
  | case
  | default
  | function
  | returnWord
  | classWord
  | breakWord
  | continueWord
  | this
  | super
  | trueWord
  | falseWord
  | global
  | forWord
  | whileWord
  | doWord
  | var
  deriving DecidableEq, Inhabited

namespace Keyword

/-- Every reserved word. -/
def all : List Keyword :=
  [.ifWord, .elseWord, .new, .instanceOf, .typeOf, .delete, .int, .real, .string, .switch, .case,
   .default, .function, .returnWord, .classWord, .breakWord, .continueWord, .this, .super,
   .trueWord, .falseWord, .global, .forWord, .whileWord, .doWord, .var]

def spelling : Keyword → String
  | .ifWord => "if"
  | .elseWord => "else"
  | .new => "new"
  | .instanceOf => "instanceof"
  | .typeOf => "typeof"
  | .delete => "delete"
  | .int => "int"
  | .real => "real"
  | .string => "string"
  | .switch => "switch"
  | .case => "case"
  | .default => "default"
  | .function => "function"
  | .returnWord => "return"
  | .classWord => "class"
  | .breakWord => "break"
  | .continueWord => "continue"
  | .this => "this"
  | .super => "super"
  | .trueWord => "true"
  | .falseWord => "false"
  | .global => "global"
  | .forWord => "for"
  | .whileWord => "while"
  | .doWord => "do"
  | .var => "var"

/-- The reserved word with a given spelling. -/
def ofSpelling? (name : String) : Option Keyword :=
  all.find? (·.spelling = name)

end Keyword

/-- The operators and the punctuation. -/
inductive Mark where
  | comma
  | assign
  | eq
  | strictEq
  | arrow
  | bitAnd
  | and
  | andAssign
  | bitAndAssign
  | bitOr
  | or
  | orAssign
  | bitOrAssign
  | bitXor
  | bitXorAssign
  | add
  | addAssign
  | inc
  | sub
  | subAssign
  | dec
  | mod
  | modAssign
  | dictOpen
  | div
  | divAssign
  | intDiv
  | intDivAssign
  | mul
  | mulAssign
  | gt
  | shr
  | shrAssign
  | ge
  | lt
  | shl
  | shlAssign
  | le
  | question
  | colon
  | not
  | notEq
  | strictNotEq
  | bitNot
  | hash
  | dollar
  | semicolon
  | dot
  | lParen
  | rParen
  | lBracket
  | rBracket
  | lBrace
  | rBrace
  deriving DecidableEq, Inhabited

namespace Mark

/-- Every operator and punctuation sign. -/
def all : List Mark :=
  [.comma, .assign, .eq, .strictEq, .arrow, .bitAnd, .and, .andAssign, .bitAndAssign, .bitOr, .or,
   .orAssign, .bitOrAssign, .bitXor, .bitXorAssign, .add, .addAssign, .inc, .sub, .subAssign,
   .dec, .mod, .modAssign, .dictOpen, .div, .divAssign, .intDiv, .intDivAssign, .mul, .mulAssign,
   .gt, .shr, .shrAssign, .ge, .lt, .shl, .shlAssign, .le, .question, .colon, .not, .notEq,
   .strictNotEq, .bitNot, .hash, .dollar, .semicolon, .dot, .lParen, .rParen, .lBracket,
   .rBracket, .lBrace, .rBrace]

def spelling : Mark → String
  | .comma => ","
  | .assign => "="
  | .eq => "=="
  | .strictEq => "==="
  | .arrow => "=>"
  | .bitAnd => "&"
  | .and => "&&"
  | .andAssign => "&&="
  | .bitAndAssign => "&="
  | .bitOr => "|"
  | .or => "||"
  | .orAssign => "||="
  | .bitOrAssign => "|="
  | .bitXor => "^"
  | .bitXorAssign => "^="
  | .add => "+"
  | .addAssign => "+="
  | .inc => "++"
  | .sub => "-"
  | .subAssign => "-="
  | .dec => "--"
  | .mod => "%"
  | .modAssign => "%="
  | .dictOpen => "%["
  | .div => "/"
  | .divAssign => "/="
  | .intDiv => "\\"
  | .intDivAssign => "\\="
  | .mul => "*"
  | .mulAssign => "*="
  | .gt => ">"
  | .shr => ">>"
  | .shrAssign => ">>="
  | .ge => ">="
  | .lt => "<"
  | .shl => "<<"
  | .shlAssign => "<<="
  | .le => "<="
  | .question => "?"
  | .colon => ":"
  | .not => "!"
  | .notEq => "!="
  | .strictNotEq => "!=="
  | .bitNot => "~"
  | .hash => "#"
  | .dollar => "$"
  | .semicolon => ";"
  | .dot => "."
  | .lParen => "("
  | .rParen => ")"
  | .lBracket => "["
  | .rBracket => "]"
  | .lBrace => "\x7b"
  | .rBrace => "\x7d"

/-- The name of a sign, for tools that show tokens. -/
def name : Mark → String
  | .comma => "Comma"
  | .assign => "Assign"
  | .eq => "Eq"
  | .strictEq => "StrictEq"
  | .arrow => "Arrow"
  | .bitAnd => "BitAnd"
  | .and => "And"
  | .andAssign => "AndAssign"
  | .bitAndAssign => "BitAndAssign"
  | .bitOr => "BitOr"
  | .or => "Or"
  | .orAssign => "OrAssign"
  | .bitOrAssign => "BitOrAssign"
  | .bitXor => "BitXor"
  | .bitXorAssign => "BitXorAssign"
  | .add => "Add"
  | .addAssign => "AddAssign"
  | .inc => "Inc"
  | .sub => "Sub"
  | .subAssign => "SubAssign"
  | .dec => "Dec"
  | .mod => "Mod"
  | .modAssign => "ModAssign"
  | .dictOpen => "DictOpen"
  | .div => "Div"
  | .divAssign => "DivAssign"
  | .intDiv => "IntDiv"
  | .intDivAssign => "IntDivAssign"
  | .mul => "Mul"
  | .mulAssign => "MulAssign"
  | .gt => "Gt"
  | .shr => "Shr"
  | .shrAssign => "ShrAssign"
  | .ge => "Ge"
  | .lt => "Lt"
  | .shl => "Shl"
  | .shlAssign => "ShlAssign"
  | .le => "Le"
  | .question => "Question"
  | .colon => "Colon"
  | .not => "Not"
  | .notEq => "NotEq"
  | .strictNotEq => "StrictNotEq"
  | .bitNot => "BitNot"
  | .hash => "Hash"
  | .dollar => "Dollar"
  | .semicolon => "Semicolon"
  | .dot => "Dot"
  | .lParen => "LParen"
  | .rParen => "RParen"
  | .lBracket => "LBracket"
  | .rBracket => "RBracket"
  | .lBrace => "LBrace"
  | .rBrace => "RBrace"

end Mark

namespace Token

/-- What a token is. -/
inductive Kind where
  | number (value : Number)
  | str (text : String)
  | ident (name : String)
  | keyword (word : Keyword)
  | mark (sign : Mark)
  | finish
  deriving DecidableEq, Inhabited

namespace Kind

/-- How messages refer to a token. -/
def describe : Kind → String
  | .number x => "number " ++ x.display
  | .str s => "string \"" ++ s ++ "\""
  | .ident name => "`" ++ name ++ "`"
  | .keyword word => "`" ++ word.spelling ++ "`"
  | .mark sign => "`" ++ sign.spelling ++ "`"
  | .finish => "end of input"

/-- The name of a kind of token, for tools that show tokens. -/
def name : Kind → String
  | .number _ => "Number"
  | .str _ => "Str"
  | .ident _ => "Ident"
  | .keyword word => word.spelling.capitalize
  | .mark sign => sign.name
  | .finish => "End"

end Kind

end Token

/-- A token and where it starts. -/
structure Token where
  kind : Token.Kind
  position : Position
  deriving DecidableEq, Inhabited

end ScriptEngine
