import ScriptEngine.Number.Shortest

/-!
# Numbers as text

Two layouts of the shortest digits. `display` never uses an exponent. `jsonText` keeps a point
in every number, and goes over to an exponent with a sign outside of `1e-5 ≤ |x| < 1e16`.
`format` is the form that scripts see: whole numbers below `1e15` are written as integers, and
the classes without digits by name.
-/

namespace ScriptEngine

namespace Decimal

/-- The decimal without an exponent. -/
def positional (d : Decimal) : String :=
  let ds := Nat.toDigits 10 d.digits
  let before : Int := ds.length + d.exponent
  String.ofList <|
    if 0 ≤ d.exponent then ds ++ List.replicate d.exponent.toNat '0'
    else if 0 < before then ds.take before.toNat ++ '.' :: ds.drop before.toNat
    else '0' :: '.' :: List.replicate (-before).toNat '0' ++ ds

/-- The decimal with one digit before the point and a signed exponent. -/
def scientific (d : Decimal) : String :=
  let ds := Nat.toDigits 10 d.digits
  let e : Int := ds.length + d.exponent - 1
  let rest := ds.drop 1
  let point := if rest.isEmpty then [] else '.' :: rest
  let sign := if e < 0 then '-' else '+'
  String.ofList (ds.take 1 ++ point ++ ['e', sign] ++ Nat.toDigits 10 e.natAbs)

end Decimal

namespace Number

/-- Puts a minus sign in front of the text of a negative number. -/
def signed (x : Number) (text : String) : String :=
  if x.isNegative then "-" ++ text else text

/-- The number with its shortest digits and no exponent. -/
def display (x : Number) : String :=
  if x.isNaN then "NaN"
  else if x.isInfinite then x.signed "inf"
  else if x.isZero then x.signed "0"
  else x.signed (shortest .up x).positional

/-- The number as scripts write it. -/
def format (x : Number) : String :=
  if x.isNaN then "NaN"
  else if x.isInfinite then x.signed "Infinity"
  else if x.isZero then "0"
  else if x.isWhole && x.truncate.natAbs < Nat.pow 10 15 then toString x.truncate
  else x.display

/-- The number in a JSON document, or `none` if it is not finite. -/
def jsonText? (x : Number) : Option String :=
  if !x.isFinite then none
  else if x.isZero then some (x.signed "0.0")
  else
    let d := shortest .even x
    let e : Int := (Nat.toDigits 10 d.digits).length + d.exponent - 1
    some <| x.signed <|
      if e < -5 ∨ 15 < e then d.scientific
      else if 0 ≤ d.exponent then d.positional ++ ".0"
      else d.positional

end Number

end ScriptEngine
