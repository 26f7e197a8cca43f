import ScriptEngine.Instruction
import ScriptEngine.Token

/-!
# Operators and their powers

How strongly an operator binds what stands to its left. An expression is read with a power, and
goes on as long as the next token binds more strongly than that.
-/

namespace ScriptEngine

namespace Power

/-- The power below which a whole program stands: statements are allowed. -/
def statement : Nat := 0

/-- The least power of an expression inside another construct. -/
def expression : Nat := 5

def comma : Nat := 10
def assignment : Nat := 20
def ternary : Nat := 30
def not : Nat := 189
def unary : Nat := 190
def convert : Nat := 195
def member : Nat := 200

/-- The power that admits a single primary expression only. -/
def primary : Nat := 300

end Power

open Power in
/-- How strongly a token binds what stands to its left; zero if it does not continue an
expression. -/
def Token.Kind.leftPower : Token.Kind → Nat
  | .mark sign =>
    match sign with
    | .comma | .arrow => comma
    | .assign | .addAssign | .subAssign | .mulAssign | .divAssign | .intDivAssign | .modAssign
    | .bitAndAssign | .bitOrAssign | .bitXorAssign | .shlAssign | .shrAssign | .andAssign
    | .orAssign => assignment
    | .question => ternary
    | .or => 50
    | .and => 60
    | .bitOr => 70
    | .bitXor => 80
    | .bitAnd => 90
    | .eq | .notEq | .strictEq | .strictNotEq => 100
    | .lt | .gt | .le | .ge => 110
    | .shl | .shr => 120
    | .add | .sub => 130
    | .mul | .div | .mod | .intDiv => 140
    | .inc | .dec => unary
    | .lBracket | .dot | .lParen => member
    | _ => 0
  | .keyword .instanceOf => 40
  | _ => 0

/-- The operation of a binary operator. -/
def Token.Kind.binaryOp? : Token.Kind → Option Op
  | .mark sign =>
    match sign with
    | .bitOr => some .bitOr
    | .bitXor => some .bitXor
    | .bitAnd => some .bitAnd
    | .eq => some .eq
    | .notEq => some .notEq
    | .strictEq => some .strictEq
    | .strictNotEq => some .strictNotEq
    | .lt => some .lt
    | .gt => some .gt
    | .le => some .le
    | .ge => some .ge
    | .shl => some .shl
    | .shr => some .shr
    | .add => some .add
    | .sub => some .sub
    | .mul => some .mul
    | .div => some .div
    | .mod => some .mod
    | .intDiv => some .intDiv
    | _ => none
  | .keyword .instanceOf => some .instanceOf
  | _ => none

/-- The operation of a compound assignment. -/
def Token.Kind.compoundOp? : Token.Kind → Option Op
  | .mark sign =>
    match sign with
    | .addAssign => some .add
    | .subAssign => some .sub
    | .mulAssign => some .mul
    | .divAssign => some .div
    | .intDivAssign => some .intDiv
    | .modAssign => some .mod
    | .bitAndAssign => some .bitAnd
    | .bitOrAssign => some .bitOr
    | .bitXorAssign => some .bitXor
    | .shlAssign => some .shl
    | .shrAssign => some .shr
    | .andAssign => some .and
    | .orAssign => some .or
    | _ => none
  | _ => none

/-- Whether a token starts a statement that is not an expression. -/
def Token.Kind.startsStatement : Token.Kind → Bool
  | .keyword word =>
    match word with
    | .ifWord | .whileWord | .doWord | .forWord | .var | .returnWord | .breakWord
    | .continueWord => true
    | _ => false
  | .mark .lBrace => true
  | _ => false

end ScriptEngine
