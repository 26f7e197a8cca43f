import ScriptEngine.Compile

/-!
# Expressions as trees

Code is made from tokens without a tree. To say what the code of an expression does, the
expressions are described here as trees, each with the tokens that spell it. The positions of all
tokens are part of a tree, since errors carry them.

Parentheses are nodes of their own. Where they are missing, a tree is the one that its tokens
stand for only if its operators bind strongly enough: `Fits` says that an expression can be read
with a power, and `Stops` that it ends in front of a token of some kind.
-/

namespace ScriptEngine

/-! ## Operators -/

/-- The conversions that are words. -/
inductive Conversion where
  | int
  | real
  | string
  deriving DecidableEq

namespace Conversion

def kind : Conversion → Token.Kind
  | .int => .keyword .int
  | .real => .keyword .real
  | .string => .keyword .string

def op : Conversion → Op
  | .int => .toInt
  | .real => .toReal
  | .string => .toStr

end Conversion

/-- The operators in front of their operand that only compute. -/
inductive UnaryOp where
  | negate
  | plus
  | not
  | bitNot
  | char
  | strOf
  | typeOf
  | convert (word : Conversion)
  deriving DecidableEq

namespace UnaryOp

def kind : UnaryOp → Token.Kind
  | .negate => .mark .sub
  | .plus => .mark .add
  | .not => .mark .not
  | .bitNot => .mark .bitNot
  | .char => .mark .hash
  | .strOf => .mark .dollar
  | .typeOf => .keyword .typeOf
  | .convert word => word.kind

def op : UnaryOp → Op
  | .negate => .negate
  | .plus => .toNumber
  | .not => .not
  | .bitNot => .bitNot
  | .char => .char
  | .strOf => .strOf
  | .typeOf => .typeOf
  | .convert word => word.op

/-- The power with which the operand is read. -/
def power : UnaryOp → Nat
  | .negate | .plus => Power.unary
  | .not | .bitNot => Power.not
  | _ => Power.convert

end UnaryOp

/-- An operator between two operands that are both evaluated. -/
structure BinaryOp where
  kind : Token.Kind
  op : Op
  binary : kind.binaryOp? = some op

/-- The operators whose right operand may be skipped. -/
inductive LogicOp where
  | and
  | or
  deriving DecidableEq

namespace LogicOp

def kind : LogicOp → Token.Kind
  | .and => .mark .and
  | .or => .mark .or

/-- The jump to the case in which the left operand decides. -/
def leave : LogicOp → Op
  | .and => .jumpFalse
  | .or => .jumpTrue

def op : LogicOp → Op
  | .and => .and
  | .or => .or

/-- The truth of the left operand that decides, which is the result then. -/
def decisive : LogicOp → Bool
  | .and => false
  | .or => true

/-- The load of the result if the left operand decides. -/
def decided : LogicOp → Op
  | .and => .loadFalse
  | .or => .loadTrue

end LogicOp

/-- An assignment, plain or with an operation. -/
inductive AssignOp where
  | plain
  | compound (kind : Token.Kind) (op : Op) (h : kind.compoundOp? = some op)

namespace AssignOp

def kind : AssignOp → Token.Kind
  | .plain => .mark .assign
  | .compound kind _ _ => kind

def op? : AssignOp → Option Op
  | .plain => none
  | .compound _ op _ => some op

end AssignOp

/-- A step of a variable by one. -/
inductive StepOp where
  | inc
  | dec
  deriving DecidableEq

namespace StepOp

def kind : StepOp → Token.Kind
  | .inc => .mark .inc
  | .dec => .mark .dec

def before : StepOp → Op
  | .inc => .inc
  | .dec => .dec

def after : StepOp → Op
  | .inc => .postInc
  | .dec => .postDec

/-- The next value. -/
def change : StepOp → Int32 → Int32
  | .inc => (· + 1)
  | .dec => (· - 1)

end StepOp

/-! ## Trees -/

/-- A dot and a name behind the class of a new instance. -/
structure PathStep where
  dot : Position
  place : Position
  name : String

mutual

/-- An expression. The positions are those of its tokens, in the order of the source. -/
inductive Expr where
  | number (place : Position) (x : Number)
  | text (place : Position) (s : String)
  | truth (place : Position) (b : Bool)
  | this (place : Position)
  | global (place : Position)
  | name (place : Position) (s : String)
  | paren (opening : Position) (e : Expr) (closing : Position)
  | cast (opening : Position) (word : Conversion) (place closing : Position) (e : Expr)
  | unary (op : UnaryOp) (place : Position) (e : Expr)
  | array (opening : Position) (items : Items) (closing : Position)
  | dict (opening : Position) (entries : Entries) (closing : Position)
  /-- A new instance without arguments. -/
  | fresh (place : Position) (cls : Expr) (path : List PathStep)
  /-- A new instance with arguments. -/
  | freshWith (place : Position) (cls : Expr) (path : List PathStep) (opening : Position)
      (args : Items) (closing : Position)
  | binary (l : Expr) (op : BinaryOp) (place : Position) (r : Expr)
  | logic (l : Expr) (op : LogicOp) (place : Position) (r : Expr)
  | comma (l : Expr) (place : Position) (r : Expr)
  | ternary (c : Expr) (question : Position) (a : Expr) (colon : Position) (b : Expr)
  | dot (e : Expr) (place : Position) (behind : Position) (s : String)
  | index (e : Expr) (opening : Position) (key : Expr) (closing : Position)
  | call (e : Expr) (opening : Position) (args : Items) (closing : Position)
  | assign (target : Expr) (op : AssignOp) (place : Position) (e : Expr)
  | stepBefore (op : StepOp) (place : Position) (target : Expr)
  | stepAfter (target : Expr) (op : StepOp) (place : Position)
  | delete (place : Position) (target : Expr)

/-- The items of an array, or arguments. An array may have holes, and a comma behind its last
item. -/
inductive Items where
  | done
  | last (e : Expr)
  | hole (comma : Position) (items : Items)
  | more (e : Expr) (comma : Position) (items : Items)

/-- The key of a dictionary entry with what separates it from the value. -/
inductive DictKey where
  | label (place : Position) (s : String) (colon : Position)
  | computed (e : Expr) (separator : Mark) (place : Position)

/-- The entries of a dictionary. -/
inductive Entries where
  | done
  | last (key : DictKey) (e : Expr)
  | more (key : DictKey) (e : Expr) (comma : Position) (entries : Entries)

end

/-! ## Tokens -/

def PathStep.tokens (step : PathStep) : List Token :=
  [⟨.mark .dot, step.dot⟩, ⟨.ident step.name, step.place⟩]

/-- The first token of an expression. -/
@[simp] def Expr.first : Expr → Token
  | .number place x => ⟨.number x, place⟩
  | .text place s => ⟨.str s, place⟩
  | .truth place b => ⟨.keyword (if b then .trueWord else .falseWord), place⟩
  | .this place => ⟨.keyword .this, place⟩
  | .global place => ⟨.keyword .global, place⟩
  | .name place s => ⟨.ident s, place⟩
  | .paren opening _ _ | .cast opening _ _ _ _ => ⟨.mark .lParen, opening⟩
  | .unary op place _ => ⟨op.kind, place⟩
  | .array opening _ _ => ⟨.mark .lBracket, opening⟩
  | .dict opening _ _ => ⟨.mark .dictOpen, opening⟩
  | .fresh place _ _ | .freshWith place _ _ _ _ _ => ⟨.keyword .new, place⟩
  | .binary l _ _ _ | .logic l _ _ _ | .comma l _ _ => l.first
  | .ternary c _ _ _ _ => c.first
  | .dot e _ _ _ | .index e _ _ _ | .call e _ _ _ => e.first
  | .assign target _ _ _ | .stepAfter target _ _ => target.first
  | .stepBefore op place _ => ⟨op.kind, place⟩
  | .delete place _ => ⟨.keyword .delete, place⟩

mutual

/-- The tokens of an expression behind the first one. -/
@[simp] def Expr.rest : Expr → List Token
  | .number _ _ | .text _ _ | .truth _ _ | .this _ | .global _ | .name _ _ => []
  | .paren _ e closing => e.first :: (e.rest ++ [⟨.mark .rParen, closing⟩])
  | .cast _ word place closing e =>
    ⟨word.kind, place⟩ :: ⟨.mark .rParen, closing⟩ :: e.first :: e.rest
  | .unary _ _ e => e.first :: e.rest
  | .array _ items closing => items.tokens ++ [⟨.mark .rBracket, closing⟩]
  | .dict _ entries closing => entries.tokens ++ [⟨.mark .rBracket, closing⟩]
  | .fresh _ cls path => cls.first :: (cls.rest ++ path.flatMap PathStep.tokens)
  | .freshWith _ cls path opening args closing =>
    cls.first :: (cls.rest ++ (path.flatMap PathStep.tokens ++
      ⟨.mark .lParen, opening⟩ :: (args.tokens ++ [⟨.mark .rParen, closing⟩])))
  | .binary l op place r => l.rest ++ ⟨op.kind, place⟩ :: r.first :: r.rest
  | .logic l op place r => l.rest ++ ⟨op.kind, place⟩ :: r.first :: r.rest
  | .comma l place r => l.rest ++ ⟨.mark .comma, place⟩ :: r.first :: r.rest
  | .ternary c question a colon b =>
    c.rest ++ ⟨.mark .question, question⟩ :: a.first :: (a.rest ++
      ⟨.mark .colon, colon⟩ :: b.first :: b.rest)
  | .dot e place behind s => e.rest ++ [⟨.mark .dot, place⟩, ⟨.ident s, behind⟩]
  | .index e opening key closing =>
    e.rest ++ ⟨.mark .lBracket, opening⟩ :: key.first :: (key.rest ++ [⟨.mark .rBracket, closing⟩])
  | .call e opening args closing =>
    e.rest ++ ⟨.mark .lParen, opening⟩ :: (args.tokens ++ [⟨.mark .rParen, closing⟩])
  | .assign target op place e => target.rest ++ ⟨op.kind, place⟩ :: e.first :: e.rest
  | .stepBefore _ _ target => target.first :: target.rest
  | .stepAfter target op place => target.rest ++ [⟨op.kind, place⟩]
  | .delete _ target => target.first :: target.rest

/-- The tokens of a list up to what closes it. -/
@[simp] def Items.tokens : Items → List Token
  | .done => []
  | .last e => e.first :: e.rest
  | .hole comma items => ⟨.mark .comma, comma⟩ :: items.tokens
  | .more e comma items => e.first :: (e.rest ++ ⟨.mark .comma, comma⟩ :: items.tokens)

@[simp] def DictKey.tokens : DictKey → List Token
  | .label place s colon => [⟨.ident s, place⟩, ⟨.mark .colon, colon⟩]
  | .computed e separator place => e.first :: (e.rest ++ [⟨.mark separator, place⟩])

@[simp] def Entries.tokens : Entries → List Token
  | .done => []
  | .last key e => key.tokens ++ e.first :: e.rest
  | .more key e comma entries =>
    key.tokens ++ e.first :: (e.rest ++ ⟨.mark .comma, comma⟩ :: entries.tokens)

end

/-! ## Precedence -/

/-- What stands behind the class of a new instance, if the instance is followed by a token. -/
def behindClass (path : List PathStep) (behind : Token.Kind) : Token.Kind :=
  if path.isEmpty then behind else .mark .dot

/-- A token of this kind does not belong to the expression in front of it. -/
@[simp] def Expr.Stops (kind : Token.Kind) : Expr → Prop
  | .cast _ _ _ _ e => kind.leftPower ≤ Power.convert ∧ e.Stops kind
  | .unary op _ e => kind.leftPower ≤ op.power ∧ e.Stops kind
  | .fresh _ cls path =>
    kind ≠ .mark .dot ∧ kind ≠ .mark .lParen ∧ cls.Stops (behindClass path kind)
  | .binary _ op _ r => kind.leftPower ≤ op.kind.leftPower ∧ r.Stops kind
  | .logic _ op _ r => kind.leftPower ≤ op.kind.leftPower ∧ r.Stops kind
  | .comma _ _ r => kind.leftPower ≤ Power.comma ∧ r.Stops kind
  | .ternary _ _ _ _ b => kind.leftPower ≤ Power.ternary - 1 ∧ b.Stops kind
  | .assign _ _ _ e => kind.leftPower ≤ Power.assignment - 1 ∧ e.Stops kind
  | .stepBefore _ _ target => kind.leftPower ≤ Power.unary ∧ target.Stops kind
  | .delete _ target => kind.leftPower ≤ Power.convert ∧ target.Stops kind
  | _ => True

/-- Items that can be arguments: there are no holes, and none is missing at the end. -/
@[simp] def Items.Filled : Items → Prop
  | .last _ => True
  | .more _ _ items => items.Filled
  | _ => False

mutual

/-- The expression can be read with a power: its operators bind more strongly than that, and each
of its parts ends where it should. -/
@[simp] def Expr.Fits : Expr → Nat → Prop
  | .number _ _, _ | .text _ _, _ | .truth _ _, _ | .this _, _ | .global _, _ | .name _ _, _ => True
  | .paren _ e _, _ => e.Fits Power.expression ∧ e.Stops (.mark .rParen)
  | .cast _ _ _ _ e, _ => e.Fits Power.convert
  | .unary op _ e, _ => e.Fits op.power
  | .array _ items _, _ => items.Fit (.mark .rBracket)
  | .dict _ entries _, _ => entries.Fit
  | .fresh _ cls _, _ => cls.Fits Power.primary
  | .freshWith _ cls path _ args _, _ =>
    cls.Fits Power.primary ∧ cls.Stops (behindClass path (.mark .lParen)) ∧
      (args = .done ∨ args.Filled) ∧ args.Fit (.mark .rParen)
  | .binary l op _ r, power =>
    power < op.kind.leftPower ∧ l.Fits power ∧ l.Stops op.kind ∧ r.Fits op.kind.leftPower
  | .logic l op _ r, power =>
    power < op.kind.leftPower ∧ l.Fits power ∧ l.Stops op.kind ∧ r.Fits op.kind.leftPower
  | .comma l _ r, power =>
    power < Power.comma ∧ l.Fits power ∧ l.Stops (.mark .comma) ∧ r.Fits Power.comma
  | .ternary c _ a _ b, power =>
    power < Power.ternary ∧ c.Fits power ∧ c.Stops (.mark .question) ∧ a.Fits Power.comma ∧
      a.Stops (.mark .colon) ∧ b.Fits (Power.ternary - 1)
  | .dot e _ _ _, power => power < Power.member ∧ e.Fits power ∧ e.Stops (.mark .dot)
  | .index e _ key _, power =>
    power < Power.member ∧ e.Fits power ∧ e.Stops (.mark .lBracket) ∧
      key.Fits Power.expression ∧ key.Stops (.mark .rBracket)
  | .call e _ args _, power =>
    power < Power.member ∧ e.Fits power ∧ e.Stops (.mark .lParen) ∧
      (args = .done ∨ args.Filled) ∧ args.Fit (.mark .rParen)
  | .assign target op _ e, power =>
    power < Power.assignment ∧ target.Fits power ∧ target.Stops op.kind ∧
      e.Fits (Power.assignment - 1)
  | .stepBefore _ _ target, _ => target.Fits Power.unary
  | .stepAfter target op _, power =>
    power < Power.unary ∧ target.Fits power ∧ target.Stops op.kind
  | .delete _ target, _ => target.Fits Power.convert

/-- The items can be read in front of what closes their list. -/
@[simp] def Items.Fit (closing : Token.Kind) : Items → Prop
  | .done => True
  | .last e => e.Fits Power.comma ∧ e.Stops closing
  | .hole _ items => items.Fit closing
  | .more e _ items => e.Fits Power.comma ∧ e.Stops (.mark .comma) ∧ items.Fit closing

/-- The key can be read. One that is a name alone and has a colon behind it would be a label. -/
@[simp] def DictKey.Fit : DictKey → Prop
  | .label _ _ _ => True
  | .computed e separator _ =>
    (separator = .arrow ∨ separator = .colon ∧ ∀ place s, e ≠ .name place s) ∧
      e.Fits Power.comma ∧ e.Stops (.mark separator)

/-- The entries can be read. -/
@[simp] def Entries.Fit : Entries → Prop
  | .done => True
  | .last key e => key.Fit ∧ e.Fits Power.comma ∧ e.Stops (.mark .rBracket)
  | .more key e _ entries =>
    key.Fit ∧ e.Fits Power.comma ∧ e.Stops (.mark .comma) ∧ entries.Fit

end

/-! ## Targets -/

/-- Whether an expression stands for a place that a value can be assigned to. -/
@[simp] def Expr.isTarget : Expr → Bool
  | .name _ _ | .dot _ _ _ _ | .index _ _ _ _ => true
  | .paren _ e _ => e.isTarget
  | .comma _ _ r => r.isTarget
  | _ => false

mutual

/-- The first operator in an expression that needs a target and has none. -/
@[simp] def Expr.fault? : Expr → Option Position
  | .number _ _ | .text _ _ | .truth _ _ | .this _ | .global _ | .name _ _ => none
  | .paren _ e _ | .cast _ _ _ _ e | .unary _ _ e | .dot e _ _ _ => e.fault?
  | .array _ items _ => items.fault?
  | .dict _ entries _ => entries.fault?
  | .fresh _ cls _ => cls.fault?
  | .freshWith _ cls _ _ args _ => cls.fault?.or args.fault?
  | .binary l _ _ r | .logic l _ _ r | .comma l _ r => l.fault?.or r.fault?
  | .ternary c _ a _ b => c.fault?.or (a.fault?.or b.fault?)
  | .index e _ key _ => e.fault?.or key.fault?
  | .call e _ args _ => e.fault?.or args.fault?
  | .assign target _ place e =>
    target.fault?.or (if target.isTarget then e.fault? else some place)
  | .stepBefore _ place target | .stepAfter target _ place | .delete place target =>
    target.fault?.or (if target.isTarget then none else some place)

@[simp] def Items.fault? : Items → Option Position
  | .done => none
  | .last e => e.fault?
  | .hole _ items => items.fault?
  | .more e _ items => e.fault?.or items.fault?

@[simp] def DictKey.fault? : DictKey → Option Position
  | .label _ _ _ => none
  | .computed e _ _ => e.fault?

@[simp] def Entries.fault? : Entries → Option Position
  | .done => none
  | .last key e => key.fault?.or e.fault?
  | .more key e _ entries => key.fault?.or (e.fault?.or entries.fault?)

end

end ScriptEngine
