import ScriptEngine.Source

/-!
# Instructions

An instruction has three operands. Most of them name registers, counted from the base of the
frame: 0 is the activation, 1 the receiver, 2 the result of statements, and the registers below
zero are parameters and named locals. The others are indices of constants or jump targets.

An operand is an integer without a bound, where the engine keeps it in 32 bits. So code of more than
`2 ^ 31` instructions, constants or registers is out of scope: there an index or a jump target would
start over, here it does not.
-/

namespace ScriptEngine

/-- The operations. `R` are the registers of the frame and `K` the constants of its chunk. -/
inductive Op where
  -- `R[a] = R[b] op R[c]`
  | bitAnd
  | bitOr
  | bitXor
  | sub
  | add
  | mod
  | div
  | intDiv
  | mul
  | and
  | or
  | shl
  | shr
  | eq
  | strictEq
  | notEq
  | strictNotEq
  | gt
  | ge
  | lt
  | le
  -- `R[a] = op R[b]`
  | not
  | bitNot
  | toInt
  | toReal
  | negate
  | toStr
  | toNumber
  | char
  | strOf
  | typeOf
  -- the others
  /-- Does `R[a] = R[b][R[c]]`. -/
  | dot
  /-- Does `R[a][R[b]] = R[c]`. -/
  | dotSet
  /-- Does `R[a][R[b]] = void`. -/
  | dotSetVoid
  /-- Removes member `R[b]` of `R[a]`. -/
  | delete
  /-- Does `R[a] = K[b]`. -/
  | loadConst
  /-- Does `R[a] = R[b]`; a property in a local `R[a]` receives the value through its setter. -/
  | copy
  | loadVoid
  | loadTrue
  | loadFalse
  /-- Does `R[a] = R[a](R[b], ..., R[c - 1])`. -/
  | call
  /-- Goes on at `a`. -/
  | jump
  /-- Goes on at `b` if `R[a]` is false. -/
  | jumpFalse
  /-- Goes on at `b` if `R[a]` is true. -/
  | jumpTrue
  /-- Leaves the frame with `R[a]`. -/
  | ret
  | retVoid
  /-- Does `R[b] += 1; R[a] = R[b]`. -/
  | inc
  | dec
  /-- Does `R[a] = R[b]; R[b] += 1`. -/
  | postInc
  | postDec
  /-- Does `R[a] = [R[b], ..., R[c - 1]]`. -/
  | makeArray
  /-- Does `R[a]` is the dictionary of the pairs in `R[b], ..., R[c - 1]`. -/
  | makeDict
  /-- Does `R[a]` is the function of template `R[a]` with defaults `R[b], ..., R[c - 1]`. -/
  | makeFunc
  /-- Binds the function in `R[a]` to the running activation. -/
  | bindClosure
  /-- Does `R[a]` is the class that `R[b]` names, or the global class named `K[c]`. -/
  | newObject
  /-- Does `R[a] = R[b] instanceof R[c]`. -/
  | instanceOf
  | loadGlobal
  /-- Declares that the local named `K[b]` is in register `a`. -/
  | registerLocal
  /-- Links the name `K[a]` to the local of an enclosing activation. -/
  | captureUpvalue
  | nop
  deriving DecidableEq, Inhabited

namespace Op

/-- The mnemonic of an operation. -/
def name : Op → String
  | .bitAnd => "BITAND"
  | .bitOr => "BITOR"
  | .bitXor => "BITXOR"
  | .sub => "SUB"
  | .add => "ADD"
  | .mod => "MOD"
  | .div => "DIV"
  | .intDiv => "INTDIV"
  | .mul => "MUL"
  | .and => "AND"
  | .or => "OR"
  | .shl => "SHL"
  | .shr => "SHR"
  | .eq => "EQ"
  | .strictEq => "STRICTEQ"
  | .notEq => "NE"
  | .strictNotEq => "STRICTNE"
  | .gt => "GT"
  | .ge => "GE"
  | .lt => "LT"
  | .le => "LE"
  | .not => "NOT"
  | .bitNot => "BITNOT"
  | .toInt => "TOINT"
  | .toReal => "TOREAL"
  | .negate => "NEG"
  | .toStr => "TOSTR"
  | .toNumber => "TONUM"
  | .char => "CHAR"
  | .strOf => "STROF"
  | .typeOf => "TYPEOF"
  | .dot => "DOT"
  | .dotSet => "DOTSET"
  | .dotSetVoid => "DOTSETVOID"
  | .delete => "DELETE"
  | .loadConst => "LOADK"
  | .copy => "COPY"
  | .loadVoid => "LOADVOID"
  | .loadTrue => "LOADTRUE"
  | .loadFalse => "LOADFALSE"
  | .call => "CALL"
  | .jump => "JMP"
  | .jumpFalse => "JMPF"
  | .jumpTrue => "JMPT"
  | .ret => "RET"
  | .retVoid => "RETVOID"
  | .inc => "INC"
  | .dec => "DEC"
  | .postInc => "POSTINC"
  | .postDec => "POSTDEC"
  | .makeArray => "MKARRAY"
  | .makeDict => "MKDICT"
  | .makeFunc => "MKFUNC"
  | .bindClosure => "BINDCLO"
  | .newObject => "NEW"
  | .instanceOf => "INSTANCEOF"
  | .loadGlobal => "GLOBAL"
  | .registerLocal => "REGVAR"
  | .captureUpvalue => "UPVAL"
  | .nop => "NOP"

/-- Every operation. -/
def all : List Op :=
  [.bitAnd, .bitOr, .bitXor, .sub, .add, .mod, .div, .intDiv, .mul, .and, .or, .shl, .shr, .eq,
   .strictEq, .notEq, .strictNotEq, .gt, .ge, .lt, .le, .not, .bitNot, .toInt, .toReal, .negate,
   .toStr, .toNumber, .char, .strOf, .typeOf, .dot, .dotSet, .dotSetVoid, .delete, .loadConst,
   .copy, .loadVoid, .loadTrue, .loadFalse, .call, .jump, .jumpFalse, .jumpTrue, .ret, .retVoid,
   .inc, .dec, .postInc, .postDec, .makeArray, .makeDict, .makeFunc, .bindClosure, .newObject,
   .instanceOf, .loadGlobal, .registerLocal, .captureUpvalue, .nop]

/-- The operation with a given mnemonic. -/
def ofName? (name : String) : Option Op :=
  all.find? (·.name = name)

/-- Which of the three operands name registers, rather than constants or jump targets. -/
def registerOperands : Op → Bool × Bool × Bool
  | .jump | .captureUpvalue | .nop | .retVoid => (false, false, false)
  | .loadConst | .jumpFalse | .jumpTrue | .registerLocal | .loadGlobal | .loadVoid | .loadTrue
  | .loadFalse | .ret | .bindClosure => (true, false, false)
  | .newObject | .dotSetVoid | .delete | .not | .bitNot | .toInt | .toReal | .negate | .toStr
  | .toNumber | .char | .strOf | .typeOf | .copy | .inc | .dec | .postInc | .postDec =>
    (true, true, false)
  | _ => (true, true, true)

end Op

/-- An operation, its operands and the place in the source it was made for. -/
structure Instruction where
  op : Op
  a : Int
  b : Int
  c : Int
  position : Position
  deriving DecidableEq, Inhabited

namespace Instruction

/-- The operands that name registers. -/
def registers (i : Instruction) : List Int :=
  let (ra, rb, rc) := i.op.registerOperands
  (if ra then [i.a] else []) ++ (if rb then [i.b] else []) ++ (if rc then [i.c] else [])

/-- The highest register that an instruction names. -/
def maxRegister? (i : Instruction) : Option Int :=
  i.registers.max?

/-- The lowest register that an instruction names. -/
def minRegister? (i : Instruction) : Option Int :=
  i.registers.min?

end Instruction

end ScriptEngine
