import ScriptEngine.Proofs.Expression.Script
import ScriptEngine.Proofs.Precedence.Lexemes

/-!
# Expressions with and without parentheses

A `Shape` is an expression as it is written, its parentheses included, but without positions. Its
text has one blank between any two lexemes, and is read as the tokens of the expression tree that
the shape stands for (`Shape.tokens_toExpr`).

Two texts of the same expression matter. `full` has a pair of parentheses around every part.
`spare` has a pair only where the powers of the operators ask for it:

- in front of an operator, if the part would take the operator for its own (`stops`);
- as an operand that is read with a power, if one of the part's operators does not bind more
  strongly than that (`fits`).

Both can be read from end to end (`fits_full`, `fits_spare`).
-/

namespace ScriptEngine

/-! ## Leaves -/

/-- A word as a text. -/
structure Word where
  text : List Char
  whole : longest text = some (.word, text.length)

/-- A word that is not reserved. -/
structure Name extends Word where
  free : Keyword.ofSpelling? (String.ofList text) = none

/-- A number as it is written. -/
structure Numeral where
  text : List Char
  value : Number
  whole : longest text = some (.number, text.length) ∨ longest text = some (.fraction, text.length)
  read : Number.read? text = some value

/-- Whether a token is an operator or a bracket, and not the dot of a member. -/
def Token.Kind.isOperator : Token.Kind → Bool
  | .mark .dot => false
  | .mark _ | .keyword _ => true
  | _ => false

/-- The lexeme of a token with one spelling. -/
def Lexeme.ofKind (kind : Token.Kind) : Lexeme where
  text := match kind with
    | .mark m => m.spelling.toList
    | .keyword word => word.spelling.toList
    | _ => []
  kind := kind

def Word.lexeme (x : Word) : Lexeme :=
  ⟨x.text, .ident (String.ofList x.text)⟩

def Numeral.lexeme (x : Numeral) : Lexeme :=
  ⟨x.text, .number x.value⟩

/-! ## Shapes -/

mutual

/-- An expression as it is written. -/
inductive Shape where
  | name (x : Name)
  | numeral (x : Numeral)
  | paren (s : Shape)
  | cast (word : Conversion) (s : Shape)
  | unary (op : UnaryOp) (s : Shape)
  | stepBefore (op : StepOp) (target : Shape)
  | delete (target : Shape)
  | binary (l : Shape) (op : BinaryOp) (r : Shape)
  | logic (l : Shape) (op : LogicOp) (r : Shape)
  | comma (l r : Shape)
  | ternary (c a b : Shape)
  | assign (target : Shape) (op : AssignOp) (s : Shape)
  | stepAfter (target : Shape) (op : StepOp)
  | dot (s : Shape) (x : Word)
  | index (s key : Shape)
  /-- A call without arguments. -/
  | invoke (s : Shape)
  | call (s : Shape) (args : Args)

/-- The arguments of a call, of which there is at least one. -/
inductive Args where
  | last (s : Shape)
  | more (s : Shape) (args : Args)

end

mutual

/-- The lexemes of an expression. -/
def Shape.words : Shape → List Lexeme
  | .name x => [x.lexeme]
  | .numeral x => [x.lexeme]
  | .paren s => .ofKind (.mark .lParen) :: (s.words ++ [.ofKind (.mark .rParen)])
  | .cast word s =>
    .ofKind (.mark .lParen) :: .ofKind word.kind :: .ofKind (.mark .rParen) :: s.words
  | .unary op s => .ofKind op.kind :: s.words
  | .stepBefore op target => .ofKind op.kind :: target.words
  | .delete target => .ofKind (.keyword .delete) :: target.words
  | .binary l op r => l.words ++ .ofKind op.kind :: r.words
  | .logic l op r => l.words ++ .ofKind op.kind :: r.words
  | .comma l r => l.words ++ .ofKind (.mark .comma) :: r.words
  | .ternary c a b =>
    c.words ++ .ofKind (.mark .question) :: (a.words ++ .ofKind (.mark .colon) :: b.words)
  | .assign target op s => target.words ++ .ofKind op.kind :: s.words
  | .stepAfter target op => target.words ++ [.ofKind op.kind]
  | .dot s x => s.words ++ [.ofKind (.mark .dot), x.lexeme]
  | .index s key =>
    s.words ++ .ofKind (.mark .lBracket) :: (key.words ++ [.ofKind (.mark .rBracket)])
  | .invoke s => s.words ++ [.ofKind (.mark .lParen), .ofKind (.mark .rParen)]
  | .call s args =>
    s.words ++ .ofKind (.mark .lParen) :: (args.words ++ [.ofKind (.mark .rParen)])

def Args.words : Args → List Lexeme
  | .last s => s.words
  | .more s args => s.words ++ .ofKind (.mark .comma) :: args.words

end

/-- The text of an expression, with blanks between its lexemes. -/
def Shape.source (s : Shape) : String :=
  String.ofList (spaced s.words)

/-! ## Precedence -/

/-- A token of this kind does not belong to the expression in front of it. -/
@[simp] def Shape.stops (kind : Token.Kind) : Shape → Bool
  | .cast _ s => kind.leftPower ≤ Power.convert && s.stops kind
  | .unary op s => kind.leftPower ≤ op.power && s.stops kind
  | .stepBefore _ target => kind.leftPower ≤ Power.unary && target.stops kind
  | .delete target => kind.leftPower ≤ Power.convert && target.stops kind
  | .binary _ op r => kind.leftPower ≤ op.kind.leftPower && r.stops kind
  | .logic _ op r => kind.leftPower ≤ op.kind.leftPower && r.stops kind
  | .comma _ r => kind.leftPower ≤ Power.comma && r.stops kind
  | .ternary _ _ b => kind.leftPower ≤ Power.ternary - 1 && b.stops kind
  | .assign _ _ s => kind.leftPower ≤ Power.assignment - 1 && s.stops kind
  | _ => true

mutual

/-- The expression can be read with a power: its operators bind more strongly than that, and each
of its parts ends where it should. -/
@[simp] def Shape.fits : Shape → Nat → Bool
  | .name _, _ | .numeral _, _ => true
  | .paren s, _ => s.fits Power.expression && s.stops (.mark .rParen)
  | .cast _ s, _ => s.fits Power.convert
  | .unary op s, _ => s.fits op.power
  | .stepBefore _ target, _ => target.fits Power.unary
  | .delete target, _ => target.fits Power.convert
  | .binary l op r, power =>
    power < op.kind.leftPower && l.fits power && l.stops op.kind && r.fits op.kind.leftPower
  | .logic l op r, power =>
    power < op.kind.leftPower && l.fits power && l.stops op.kind && r.fits op.kind.leftPower
  | .comma l r, power =>
    power < Power.comma && l.fits power && l.stops (.mark .comma) && r.fits Power.comma
  | .ternary c a b, power =>
    power < Power.ternary && c.fits power && c.stops (.mark .question) && a.fits Power.comma &&
      a.stops (.mark .colon) && b.fits (Power.ternary - 1)
  | .assign target op s, power =>
    power < Power.assignment && target.fits power && target.stops op.kind &&
      s.fits (Power.assignment - 1)
  | .stepAfter target op, power =>
    power < Power.unary && target.fits power && target.stops op.kind
  | .dot s _, power => power < Power.member && s.fits power && s.stops (.mark .dot)
  | .index s key, power =>
    power < Power.member && s.fits power && s.stops (.mark .lBracket) &&
      key.fits Power.expression && key.stops (.mark .rBracket)
  | .invoke s, power => power < Power.member && s.fits power && s.stops (.mark .lParen)
  | .call s args, power =>
    power < Power.member && s.fits power && s.stops (.mark .lParen) && args.fit

/-- The arguments can be read. -/
def Args.fit : Args → Bool
  | .last s => s.fits Power.comma && s.stops (.mark .rParen)
  | .more s args => s.fits Power.comma && s.stops (.mark .comma) && args.fit

end

/-! ## Parentheses -/

mutual

/-- The expression without parentheses. -/
def Shape.strip : Shape → Shape
  | .name x => .name x
  | .numeral x => .numeral x
  | .paren s => s.strip
  | .cast word s => .cast word s.strip
  | .unary op s => .unary op s.strip
  | .stepBefore op target => .stepBefore op target.strip
  | .delete target => .delete target.strip
  | .binary l op r => .binary l.strip op r.strip
  | .logic l op r => .logic l.strip op r.strip
  | .comma l r => .comma l.strip r.strip
  | .ternary c a b => .ternary c.strip a.strip b.strip
  | .assign target op s => .assign target.strip op s.strip
  | .stepAfter target op => .stepAfter target.strip op
  | .dot s x => .dot s.strip x
  | .index s key => .index s.strip key.strip
  | .invoke s => .invoke s.strip
  | .call s args => .call s.strip args.strip

def Args.strip : Args → Args
  | .last s => .last s.strip
  | .more s args => .more s.strip args.strip

end

mutual

/-- The expression with a pair of parentheses around every part. -/
def Shape.full : Shape → Shape
  | .name x => .paren (.name x)
  | .numeral x => .paren (.numeral x)
  | .paren s => s.full
  | .cast word s => .paren (.cast word s.full)
  | .unary op s => .paren (.unary op s.full)
  | .stepBefore op target => .paren (.stepBefore op target.full)
  | .delete target => .paren (.delete target.full)
  | .binary l op r => .paren (.binary l.full op r.full)
  | .logic l op r => .paren (.logic l.full op r.full)
  | .comma l r => .paren (.comma l.full r.full)
  | .ternary c a b => .paren (.ternary c.full a.full b.full)
  | .assign target op s => .paren (.assign target.full op s.full)
  | .stepAfter target op => .paren (.stepAfter target.full op)
  | .dot s x => .paren (.dot s.full x)
  | .index s key => .paren (.index s.full key.full)
  | .invoke s => .paren (.invoke s.full)
  | .call s args => .paren (.call s.full args.full)

def Args.full : Args → Args
  | .last s => .last s.full
  | .more s args => .more s.full args.full

end

/-- A pair of parentheses in front of a token that the expression would take for its own. -/
def Shape.before (s : Shape) (kind : Token.Kind) : Shape :=
  if s.stops kind then s else .paren s

/-- A pair of parentheses around an operand that cannot be read with a power. -/
def Shape.within (s : Shape) (power : Nat) : Shape :=
  if s.fits power then s else .paren s

mutual

/-- The expression with those parentheses only that the powers ask for. -/
def Shape.spare : Shape → Shape
  | .name x => .name x
  | .numeral x => .numeral x
  | .paren s => s.spare
  | .cast word s => .cast word (s.spare.within Power.convert)
  | .unary op s => .unary op (s.spare.within op.power)
  | .stepBefore op target => .stepBefore op (target.spare.within Power.unary)
  | .delete target => .delete (target.spare.within Power.convert)
  | .binary l op r => .binary (l.spare.before op.kind) op (r.spare.within op.kind.leftPower)
  | .logic l op r => .logic (l.spare.before op.kind) op (r.spare.within op.kind.leftPower)
  | .comma l r => .comma (l.spare.before (.mark .comma)) (r.spare.within Power.comma)
  | .ternary c a b =>
    .ternary (c.spare.before (.mark .question)) (a.spare.within Power.comma)
      (b.spare.within (Power.ternary - 1))
  | .assign target op s =>
    .assign (target.spare.before op.kind) op (s.spare.within (Power.assignment - 1))
  | .stepAfter target op => .stepAfter (target.spare.before op.kind) op
  | .dot s x => .dot (s.spare.before (.mark .dot)) x
  | .index s key => .index (s.spare.before (.mark .lBracket)) key.spare
  | .invoke s => .invoke (s.spare.before (.mark .lParen))
  | .call s args => .call (s.spare.before (.mark .lParen)) args.spare

def Args.spare : Args → Args
  | .last s => .last (s.spare.within Power.comma)
  | .more s args => .more (s.spare.within Power.comma) args.spare

end

/-! ## What the parentheses achieve -/

/-- Nothing takes a token that does not continue an expression. -/
theorem Shape.stops_of_leftPower (kind : Token.Kind) (h : kind.leftPower = 0) (s : Shape) :
    s.stops kind = true := by
  fun_induction Shape.stops kind s <;> simp_all

theorem UnaryOp.comma_le_power (op : UnaryOp) : Power.comma ≤ op.power := by
  cases op <;> exact of_decide_eq_true rfl

theorem BinaryOp.comma_lt_power (op : BinaryOp) : Power.comma < op.kind.leftPower := by
  obtain ⟨kind, op, h⟩ := op
  match kind with
  | .mark m => cases m <;> first | exact of_decide_eq_true rfl | cases h
  | .keyword word => cases word <;> first | exact of_decide_eq_true rfl | cases h
  | .number _ | .str _ | .ident _ | .finish => cases h

theorem LogicOp.comma_lt_power (op : LogicOp) : Power.comma < op.kind.leftPower := by
  cases op <;> decide

/-- An operand that is read with the power of the comma or a greater one ends in front of a
comma. -/
theorem Shape.stops_comma {s : Shape} {power : Nat} (hpower : Power.comma ≤ power)
    (h : s.fits power = true) : s.stops (.mark .comma) = true := by
  fun_induction Shape.stops (.mark .comma) s generalizing power with
  | case10 => rfl
  | case2 op s ih =>
    simp only [fits] at h
    have hop := op.comma_le_power
    simp only [ih hop h, Bool.and_true, decide_eq_true_eq]
    exact hop
  | case5 l op r ih =>
    simp only [fits, Bool.and_eq_true] at h
    have hop := op.comma_lt_power.le
    simp only [ih hop h.2, Bool.and_true, decide_eq_true_eq]
    exact hop
  | case6 l op r ih =>
    simp only [fits, Bool.and_eq_true] at h
    have hop := op.comma_lt_power.le
    simp only [ih hop h.2, Bool.and_true, decide_eq_true_eq]
    exact hop
  | case7 l r ih =>
    simp only [fits, Bool.and_eq_true, decide_eq_true_eq] at h
    omega
  | case1 _ s ih | case3 _ s ih | case4 s ih =>
    simp only [fits] at h
    rw [ih (by decide) h]
    rfl
  | case8 _ _ s ih | case9 _ _ s ih =>
    simp only [fits, Bool.and_eq_true] at h
    rw [ih (by decide) h.2]
    rfl

theorem Shape.fits_paren {s : Shape} {power : Nat} (h : s.fits Power.expression = true) :
    (Shape.paren s).fits power = true := by
  rw [fits, h, stops_of_leftPower _ rfl]
  rfl

theorem Shape.stops_full (s : Shape) (kind : Token.Kind) : s.full.stops kind = true := by
  match s with
  | .paren s => exact s.stops_full kind
  | .name _ | .numeral _ | .cast _ _ | .unary _ _ | .stepBefore _ _ | .delete _ | .binary _ _ _
  | .logic _ _ _ | .comma _ _ | .ternary _ _ _ | .assign _ _ _ | .stepAfter _ _ | .dot _ _
  | .index _ _ | .invoke _ | .call _ _ => rfl

section

open Shape

mutual

/-- With parentheses around every part, nothing depends on powers. -/
theorem Shape.fits_full : (s : Shape) → (power : Nat) → s.full.fits power = true
  | .name _, _ | .numeral _, _ => rfl
  | .paren s, power => s.fits_full power
  | .cast _ s, _ => fits_paren (s.fits_full _)
  | .unary _ s, _ => fits_paren (s.fits_full _)
  | .stepBefore _ target, _ => fits_paren (target.fits_full _)
  | .delete target, _ => fits_paren (target.fits_full _)
  | .binary l op r, _ => by
    refine fits_paren ?_
    have hop : Power.expression < op.kind.leftPower := lt_trans (by decide) op.comma_lt_power
    simp [fits, l.fits_full, r.fits_full, stops_full, hop]
  | .logic l op r, _ => by
    refine fits_paren ?_
    have hop : Power.expression < op.kind.leftPower := lt_trans (by decide) op.comma_lt_power
    simp [fits, l.fits_full, r.fits_full, stops_full, hop]
  | .comma l r, _ => fits_paren <| by
    simp [fits, l.fits_full, r.fits_full, stops_full,
      show Power.expression < Power.comma by decide]
  | .ternary c a b, _ => fits_paren <| by
    simp [fits, c.fits_full, a.fits_full, b.fits_full, stops_full,
      show Power.expression < Power.ternary by decide]
  | .assign target op s, _ => fits_paren <| by
    simp [fits, target.fits_full, s.fits_full, stops_full,
      show Power.expression < Power.assignment by decide]
  | .stepAfter target op, _ => fits_paren <| by
    simp [fits, target.fits_full, stops_full, show Power.expression < Power.unary by decide]
  | .dot s x, _ => fits_paren <| by
    simp [fits, s.fits_full, stops_full, show Power.expression < Power.member by decide]
  | .index s key, _ => fits_paren <| by
    simp [fits, s.fits_full, key.fits_full, stops_full,
      show Power.expression < Power.member by decide]
  | .invoke s, _ => fits_paren <| by
    simp [fits, s.fits_full, stops_full, show Power.expression < Power.member by decide]
  | .call s args, _ => fits_paren <| by
    simp [fits, s.fits_full, args.fit_full, stops_full,
      show Power.expression < Power.member by decide]

theorem Args.fit_full : (args : Args) → args.full.fit = true
  | .last s => by simp [Args.full, Args.fit, s.fits_full, stops_full]
  | .more s args => by simp [Args.full, Args.fit, s.fits_full, stops_full, args.fit_full]

end

end

section Spare

variable {s : Shape} {power : Nat} {kind : Token.Kind}

theorem Shape.stops_before (s : Shape) (kind : Token.Kind) : (s.before kind).stops kind = true := by
  unfold before
  split
  · assumption
  · rfl

theorem Shape.fits_before (h : ∀ power < Power.comma, s.fits power = true)
    (hpower : power < Power.comma) : (s.before kind).fits power = true := by
  unfold before
  split
  · exact h power hpower
  · exact fits_paren (h _ (by decide))

theorem Shape.fits_within (h : ∀ power < Power.comma, s.fits power = true) :
    (s.within power).fits power = true := by
  unfold within
  split
  · assumption
  · exact fits_paren (h _ (by decide))

end Spare

section

open Shape

mutual

/-- Where the powers ask for no parentheses, there need not be any. -/
theorem Shape.fits_spare : (s : Shape) → (power : Nat) → power < Power.comma →
    s.spare.fits power = true
  | .name _, _, _ | .numeral _, _, _ => rfl
  | .paren s, power, h => s.fits_spare power h
  | .cast _ s, _, _ => fits_within s.fits_spare
  | .unary _ s, _, _ => fits_within s.fits_spare
  | .stepBefore _ target, _, _ => fits_within target.fits_spare
  | .delete target, _, _ => fits_within target.fits_spare
  | .binary l op r, power, h => by
    simp [spare, fits, fits_before l.fits_spare h, fits_within r.fits_spare, stops_before,
      h.trans op.comma_lt_power]
  | .logic l op r, power, h => by
    simp [spare, fits, fits_before l.fits_spare h, fits_within r.fits_spare, stops_before,
      h.trans op.comma_lt_power]
  | .comma l r, power, h => by
    simp [spare, fits, fits_before l.fits_spare h, fits_within r.fits_spare, stops_before, h]
  | .ternary c a b, power, h => by
    simp [spare, fits, fits_before c.fits_spare h, fits_within a.fits_spare,
      fits_within b.fits_spare, stops_before, stops_of_leftPower (.mark .colon) rfl,
      h.trans (show Power.comma < Power.ternary by decide)]
  | .assign target op s, power, h => by
    simp [spare, fits, fits_before target.fits_spare h, fits_within s.fits_spare, stops_before,
      h.trans (show Power.comma < Power.assignment by decide)]
  | .stepAfter target op, power, h => by
    simp [spare, fits, fits_before target.fits_spare h, stops_before,
      h.trans (show Power.comma < Power.unary by decide)]
  | .dot s x, power, h => by
    simp [spare, fits, fits_before s.fits_spare h, stops_before,
      h.trans (show Power.comma < Power.member by decide)]
  | .index s key, power, h => by
    simp [spare, fits, fits_before s.fits_spare h, stops_before,
      h.trans (show Power.comma < Power.member by decide),
      key.fits_spare Power.expression (by decide), stops_of_leftPower (.mark .rBracket) rfl]
  | .invoke s, power, h => by
    simp [spare, fits, fits_before s.fits_spare h, stops_before,
      h.trans (show Power.comma < Power.member by decide)]
  | .call s args, power, h => by
    simp [spare, fits, fits_before s.fits_spare h, stops_before, args.fit_spare,
      h.trans (show Power.comma < Power.member by decide)]

theorem Args.fit_spare : (args : Args) → args.spare.fit = true
  | .last s => by
    simp [Args.spare, Args.fit, fits_within s.fits_spare,
      stops_of_leftPower (.mark .rParen) rfl]
  | .more s args => by
    have hs : (s.spare.within Power.comma).fits Power.comma = true := fits_within s.fits_spare
    simp [Args.spare, Args.fit, hs, stops_comma (le_refl _) hs, args.fit_spare]

end

end

/-! ## Reading the text -/

theorem Lexeme.readable_ofKind {kind : Token.Kind} (h : kind.isOperator = true) :
    (Lexeme.ofKind kind).Readable false := by
  match kind with
  | .mark m => exact readable_ofMark m false
  | .keyword word => exact readable_ofKeyword word
  | .number _ | .str _ | .ident _ | .finish => cases h

/-- An operator can be read where no dot is in front of it, and is none itself. -/
theorem readableAll_ofKind {kind : Token.Kind} {ws : List Lexeme} (h : kind.isOperator = true)
    (hws : ReadableAll false ws) : ReadableAll false (.ofKind kind :: ws) := by
  refine ⟨Lexeme.readable_ofKind h, ?_⟩
  rwa [decide_eq_false]
  rintro hdot
  rw [show kind = .mark .dot from hdot] at h
  cases h

theorem UnaryOp.isOperator_kind (op : UnaryOp) : op.kind.isOperator = true := by
  rcases op with _ | _ | _ | _ | _ | _ | _ | (_ | _ | _) <;> rfl

theorem BinaryOp.isOperator_kind (op : BinaryOp) : op.kind.isOperator = true := by
  obtain ⟨kind, op, h⟩ := op
  match kind with
  | .mark m => cases m <;> first | rfl | cases h
  | .keyword _ => rfl
  | .number _ | .str _ | .ident _ | .finish => cases h

theorem AssignOp.isOperator_kind (op : AssignOp) : op.kind.isOperator = true := by
  match op with
  | .plain => rfl
  | .compound kind op h =>
    match kind with
    | .mark m => cases m <;> first | rfl | cases h
    | .keyword _ | .number _ | .str _ | .ident _ | .finish => cases h

theorem Name.readableAll (x : Name) {ws : List Lexeme} (hws : ReadableAll false ws) :
    ReadableAll false (x.lexeme :: ws) := by
  refine ⟨Lexeme.readable_word x.whole ?_, hws⟩
  rw [if_neg Bool.false_ne_true, x.free]

theorem Word.readableAll (x : Word) {ws : List Lexeme} (hws : ReadableAll false ws) :
    ReadableAll true (x.lexeme :: ws) :=
  ⟨Lexeme.readable_word x.whole rfl, hws⟩

theorem Numeral.readableAll (x : Numeral) {ws : List Lexeme} (hws : ReadableAll false ws) :
    ReadableAll false (x.lexeme :: ws) :=
  ⟨Lexeme.readable_number x.whole x.read, hws⟩

mutual

/-- Every lexeme of an expression is read as its token. -/
theorem Shape.readable : (s : Shape) → {ws : List Lexeme} → ReadableAll false ws →
    ReadableAll false (s.words ++ ws)
  | .name x, _, h => x.readableAll h
  | .numeral x, _, h => x.readableAll h
  | .paren s, ws, h => by
    simp only [Shape.words, List.cons_append, List.append_assoc, List.nil_append]
    exact readableAll_ofKind rfl (s.readable (readableAll_ofKind rfl h))
  | .cast word s, ws, h => by
    have hword : word.kind.isOperator = true := by cases word <;> rfl
    exact readableAll_ofKind rfl (readableAll_ofKind hword (readableAll_ofKind rfl (s.readable h)))
  | .unary op s, ws, h => readableAll_ofKind op.isOperator_kind (s.readable h)
  | .stepBefore op target, ws, h => by
    have hop : op.kind.isOperator = true := by cases op <;> rfl
    exact readableAll_ofKind hop (target.readable h)
  | .delete target, ws, h => readableAll_ofKind rfl (target.readable h)
  | .binary l op r, ws, h => by
    simp only [Shape.words, List.cons_append, List.append_assoc]
    exact l.readable (readableAll_ofKind op.isOperator_kind (r.readable h))
  | .logic l op r, ws, h => by
    have hop : op.kind.isOperator = true := by cases op <;> rfl
    simp only [Shape.words, List.cons_append, List.append_assoc]
    exact l.readable (readableAll_ofKind hop (r.readable h))
  | .comma l r, ws, h => by
    simp only [Shape.words, List.cons_append, List.append_assoc]
    exact l.readable (readableAll_ofKind rfl (r.readable h))
  | .ternary c a b, ws, h => by
    simp only [Shape.words, List.cons_append, List.append_assoc]
    exact c.readable (readableAll_ofKind rfl (a.readable (readableAll_ofKind rfl (b.readable h))))
  | .assign target op s, ws, h => by
    simp only [Shape.words, List.cons_append, List.append_assoc]
    exact target.readable (readableAll_ofKind op.isOperator_kind (s.readable h))
  | .stepAfter target op, ws, h => by
    have hop : op.kind.isOperator = true := by cases op <;> rfl
    simp only [Shape.words, List.cons_append, List.append_assoc, List.nil_append]
    exact target.readable (readableAll_ofKind hop h)
  | .dot s x, ws, h => by
    simp only [Shape.words, List.cons_append, List.append_assoc, List.nil_append]
    exact s.readable ⟨Lexeme.readable_ofMark .dot false, x.readableAll h⟩
  | .index s key, ws, h => by
    simp only [Shape.words, List.cons_append, List.append_assoc, List.nil_append]
    exact s.readable (readableAll_ofKind rfl (key.readable (readableAll_ofKind rfl h)))
  | .invoke s, ws, h => by
    simp only [Shape.words, List.cons_append, List.append_assoc, List.nil_append]
    exact s.readable (readableAll_ofKind rfl (readableAll_ofKind rfl h))
  | .call s args, ws, h => by
    simp only [Shape.words, List.cons_append, List.append_assoc, List.nil_append]
    exact s.readable (readableAll_ofKind rfl (args.readable (readableAll_ofKind rfl h)))

theorem Args.readable : (args : Args) → {ws : List Lexeme} → ReadableAll false ws →
    ReadableAll false (args.words ++ ws)
  | .last s, _, h => s.readable h
  | .more s args, ws, h => by
    simp only [Args.words, List.cons_append, List.append_assoc]
    exact s.readable (readableAll_ofKind rfl (args.readable h))

end

/-! ## Trees -/

mutual

/-- The tree of an expression whose tokens are at the places from number `n` on. -/
def Shape.toExpr (ps : Nat → Position) : Shape → (n : Nat) → Expr
  | .name x, n => .name (ps n) (String.ofList x.text)
  | .numeral x, n => .number (ps n) x.value
  | .paren s, n => .paren (ps n) (s.toExpr ps (n + 1)) (ps (n + 1 + s.words.length))
  | .cast word s, n => .cast (ps n) word (ps (n + 1)) (ps (n + 2)) (s.toExpr ps (n + 3))
  | .unary op s, n => .unary op (ps n) (s.toExpr ps (n + 1))
  | .stepBefore op target, n => .stepBefore op (ps n) (target.toExpr ps (n + 1))
  | .delete target, n => .delete (ps n) (target.toExpr ps (n + 1))
  | .binary l op r, n =>
    .binary (l.toExpr ps n) op (ps (n + l.words.length)) (r.toExpr ps (n + l.words.length + 1))
  | .logic l op r, n =>
    .logic (l.toExpr ps n) op (ps (n + l.words.length)) (r.toExpr ps (n + l.words.length + 1))
  | .comma l r, n =>
    .comma (l.toExpr ps n) (ps (n + l.words.length)) (r.toExpr ps (n + l.words.length + 1))
  | .ternary c a b, n =>
    let m := n + c.words.length + 1
    .ternary (c.toExpr ps n) (ps (n + c.words.length)) (a.toExpr ps m) (ps (m + a.words.length))
      (b.toExpr ps (m + a.words.length + 1))
  | .assign target op s, n =>
    .assign (target.toExpr ps n) op (ps (n + target.words.length))
      (s.toExpr ps (n + target.words.length + 1))
  | .stepAfter target op, n => .stepAfter (target.toExpr ps n) op (ps (n + target.words.length))
  | .dot s x, n =>
    .dot (s.toExpr ps n) (ps (n + s.words.length)) (ps (n + s.words.length + 1))
      (String.ofList x.text)
  | .index s key, n =>
    let m := n + s.words.length + 1
    .index (s.toExpr ps n) (ps (n + s.words.length)) (key.toExpr ps m) (ps (m + key.words.length))
  | .invoke s, n =>
    .call (s.toExpr ps n) (ps (n + s.words.length)) .done (ps (n + s.words.length + 1))
  | .call s args, n =>
    let m := n + s.words.length + 1
    .call (s.toExpr ps n) (ps (n + s.words.length)) (args.toItems ps m) (ps (m + args.words.length))

def Args.toItems (ps : Nat → Position) : Args → (n : Nat) → Items
  | .last s, n => .last (s.toExpr ps n)
  | .more s args, n =>
    .more (s.toExpr ps n) (ps (n + s.words.length)) (args.toItems ps (n + s.words.length + 1))

end

/-- The tokens of lexemes at the places from number `n` on. -/
def placed (ps : Nat → Position) : List Lexeme → (n : Nat) → List Token
  | [], _ => []
  | w :: ws, n => ⟨w.kind, ps n⟩ :: placed ps ws (n + 1)

theorem placed_append (ps : Nat → Position) (ws ws' : List Lexeme) (n : Nat) :
    placed ps (ws ++ ws') n = placed ps ws n ++ placed ps ws' (n + ws.length) := by
  induction ws generalizing n with
  | nil => rfl
  | cons w ws ih =>
    rw [List.cons_append, placed, placed, ih, List.cons_append, List.length_cons]
    congr 3
    omega

theorem placed_update (ps : Nat → Position) (ws : List Lexeme) {m n : Nat} (h : m < n)
    (p : Position) : placed (Function.update ps m p) ws n = placed ps ws n := by
  induction ws generalizing n with
  | nil => rfl
  | cons w ws ih =>
    rw [placed, placed, Function.update_of_ne h.ne', ih (h.trans (Nat.lt_succ_self n))]

/-- Tokens of known kinds are at some places. -/
theorem exists_placed {ws : List Lexeme} {ts : List Token} (n : Nat)
    (h : ts.map Token.kind = ws.map Lexeme.kind) : ∃ ps, placed ps ws n = ts := by
  induction ws generalizing ts n with
  | nil => exact ⟨fun _ => ⟨1, 1⟩, (List.map_eq_nil_iff.1 h).symm⟩
  | cons w ws ih =>
    match ts with
    | [] => cases h
    | ⟨kind, p⟩ :: ts =>
      obtain ⟨hkind, hts⟩ := List.cons.inj h
      obtain ⟨ps, hps⟩ := ih (n + 1) hts
      refine ⟨Function.update ps n p, ?_⟩
      rw [placed, placed_update ps ws (Nat.lt_succ_self n), hps, Function.update_self, ← hkind]

mutual

/-- The tokens of the tree are those of the lexemes. -/
theorem Shape.tokens_toExpr (ps : Nat → Position) : (s : Shape) → (n : Nat) →
    (s.toExpr ps n).first :: (s.toExpr ps n).rest = placed ps s.words n
  | .name x, n => rfl
  | .numeral x, n => rfl
  | .paren s, n => by
    simp only [Shape.toExpr, Shape.words, Expr.first, Expr.rest, placed, placed_append,
      ← s.tokens_toExpr, List.cons_append]
    rfl
  | .cast word s, n => by
    simp only [Shape.toExpr, Shape.words, Expr.first, Expr.rest, placed, ← s.tokens_toExpr]
    rfl
  | .unary op s, n => by
    simp only [Shape.toExpr, Shape.words, Expr.first, Expr.rest, placed, ← s.tokens_toExpr]
    rfl
  | .stepBefore op target, n => by
    simp only [Shape.toExpr, Shape.words, Expr.first, Expr.rest, placed, ← target.tokens_toExpr]
    rfl
  | .delete target, n => by
    simp only [Shape.toExpr, Shape.words, Expr.first, Expr.rest, placed, ← target.tokens_toExpr]
    rfl
  | .binary l op r, n => by
    simp only [Shape.toExpr, Shape.words, Expr.first, Expr.rest, placed, placed_append,
      ← l.tokens_toExpr, ← r.tokens_toExpr, List.cons_append]
    rfl
  | .logic l op r, n => by
    simp only [Shape.toExpr, Shape.words, Expr.first, Expr.rest, placed, placed_append,
      ← l.tokens_toExpr, ← r.tokens_toExpr, List.cons_append]
    rfl
  | .comma l r, n => by
    simp only [Shape.toExpr, Shape.words, Expr.first, Expr.rest, placed, placed_append,
      ← l.tokens_toExpr, ← r.tokens_toExpr, List.cons_append]
    rfl
  | .ternary c a b, n => by
    simp only [Shape.toExpr, Shape.words, Expr.first, Expr.rest, placed, placed_append,
      ← c.tokens_toExpr, ← a.tokens_toExpr, ← b.tokens_toExpr, List.cons_append]
    rfl
  | .assign target op s, n => by
    simp only [Shape.toExpr, Shape.words, Expr.first, Expr.rest, placed, placed_append,
      ← target.tokens_toExpr, ← s.tokens_toExpr, List.cons_append]
    rfl
  | .stepAfter target op, n => by
    simp only [Shape.toExpr, Shape.words, Expr.first, Expr.rest, placed, placed_append,
      ← target.tokens_toExpr, List.cons_append]
    rfl
  | .dot s x, n => by
    simp only [Shape.toExpr, Shape.words, Expr.first, Expr.rest, placed, placed_append,
      ← s.tokens_toExpr, List.cons_append]
    rfl
  | .index s key, n => by
    simp only [Shape.toExpr, Shape.words, Expr.first, Expr.rest, placed, placed_append,
      ← s.tokens_toExpr, ← key.tokens_toExpr, List.cons_append]
    rfl
  | .invoke s, n => by
    simp only [Shape.toExpr, Shape.words, Expr.first, Expr.rest, Items.tokens, placed,
      placed_append, ← s.tokens_toExpr, List.cons_append]
    rfl
  | .call s args, n => by
    simp only [Shape.toExpr, Shape.words, Expr.first, Expr.rest, placed, placed_append,
      ← s.tokens_toExpr, ← args.tokens_toItems, List.cons_append]
    rfl

theorem Args.tokens_toItems (ps : Nat → Position) : (args : Args) → (n : Nat) →
    (args.toItems ps n).tokens = placed ps args.words n
  | .last s, n => s.tokens_toExpr ps n
  | .more s args, n => by
    simp only [Args.toItems, Args.words, Items.tokens, placed, placed_append,
      ← s.tokens_toExpr, ← args.tokens_toItems, List.cons_append]
    rfl

end

end ScriptEngine
