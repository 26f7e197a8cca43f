import ScriptEngine.Number

/-!
# Reading numbers

The text of a number is an optional sign followed by `inf`, `infinity` or `nan` in any case, or
by digits with at most one point and at least one digit, and an optional exponent. Its value is
the number nearest to what the digits denote. `readInteger?` reads a whole number of 64 bits.
-/

namespace ScriptEngine

/-- The value of a list of ASCII digits. -/
def digitsValue (ds : List Char) : Nat :=
  ds.foldl (fun n d => 10 * n + (d.toNat - '0'.toNat)) 0

/-- Splits an optional sign off a text: whether it is a minus, and the rest. -/
def readSign : List Char → Bool × List Char
  | '-' :: cs => (true, cs)
  | '+' :: cs => (false, cs)
  | cs => (false, cs)

/-- Reads a whole number of 64 bits: an optional sign and at least one digit. -/
def readInteger? (cs : List Char) : Option Int :=
  let (negative, ds) := readSign cs
  if ds.isEmpty || !ds.all Char.isDigit then none
  else
    let n : Int := if negative then -(digitsValue ds : Int) else digitsValue ds
    if Int64.minValue.toInt ≤ n ∧ n ≤ Int64.maxValue.toInt then some n else none

namespace Number

/-- The number nearest to `± digits * 10 ^ e`, the digits given as text. Powers far beyond the
range of numbers are not computed: the result is then zero or infinite. -/
def ofDecimal (negative : Bool) (digits : List Char) (e : Int) : Number :=
  let significant := digits.dropWhile (· = '0')
  let magnitude : Int := significant.length + e
  if significant.isEmpty || magnitude < -400 then withSign negative zero
  else if 400 < magnitude then infinity negative
  else ofRatio negative (digitsValue significant * Nat.pow 10 e.toNat) (Nat.pow 10 (-e).toNat)

/-- Reads the exponent that may end a number: the whole text must be one, or empty. -/
def readExponent? : List Char → Option Int
  | [] => some 0
  | c :: cs =>
    if c = 'e' ∨ c = 'E' then
      let (negative, ds) := readSign cs
      if ds.isEmpty || !ds.all Char.isDigit then none
      else some (if negative then -(digitsValue ds : Int) else digitsValue ds)
    else none

/-- Reads an unsigned decimal. -/
def readDecimal? (negative : Bool) (cs : List Char) : Option Number := do
  let whole := cs.takeWhile Char.isDigit
  let rest := cs.dropWhile Char.isDigit
  let (part, rest) :=
    match rest with
    | '.' :: rest => (rest.takeWhile Char.isDigit, rest.dropWhile Char.isDigit)
    | rest => ([], rest)
  if whole.isEmpty && part.isEmpty then none
  else
    let e ← readExponent? rest
    return ofDecimal negative (whole ++ part) (e - part.length)

/-- Reads the text of a number. -/
def read? (cs : List Char) : Option Number :=
  let (negative, cs) := readSign cs
  let word := String.ofList (cs.map Char.toLower)
  if word = "inf" ∨ word = "infinity" then some (infinity negative)
  else if word = "nan" then some (withSign negative nan)
  else readDecimal? negative cs

end Number

end ScriptEngine
