import ScriptEngine.Number

/-!
# The fewest digits

The reals that round to a finite number form an interval, with its ends included exactly when
the significand is even. `shortest` searches the decimal grids of 1, 2, ..., 17 digits: on each
it tests the two neighbours of the number, all in exact integer arithmetic, and the first grid
with a neighbour inside the interval gives the digits. Of two neighbours inside, the nearer one
is taken; a tie is settled by the caller's rule.
-/

namespace ScriptEngine

/-- The decimal `digits * 10 ^ exponent`. -/
structure Decimal where
  digits : Nat
  exponent : Int
  deriving DecidableEq, Inhabited

/-- Which of two equally near decimals is taken. -/
inductive Tie where
  | up
  | even

namespace Number

/-- A positive finite number between two grids of a common unit: a decimal `c * 10 ^ k` compares
with `h * 2 ^ (exponent - 2)` as `c * unit` with `h * scale`. -/
structure Grid where
  unit : Nat
  scale : Nat

/-- The grid of the multiples of `10 ^ k` beside a number of exponent `e`. -/
def Grid.of (e k : Int) : Grid where
  unit := Nat.pow 10 k.toNat * Nat.pow 2 (2 - e).toNat
  scale := Nat.pow 10 (-k).toNat * Nat.pow 2 (e - 2).toNat

/-- The ends of the interval of reals that round to a number, in quarters of its last place. -/
def roundingEnds (x : Number) : Nat × Nat :=
  let m := x.mantissa
  (if m = Nat.pow 2 52 ∧ 1 < x.exponentField then 4 * m - 1 else 4 * m - 2, 4 * m + 2)

/-- The decimal of the grid of `10 ^ k` nearest to a number among those that round to it. -/
def nearestOn (tie : Tie) (x : Number) (k : Int) : Option Nat :=
  let g := Grid.of x.exponent k
  let (low, high) := x.roundingEnds
  let v := 4 * x.mantissa * g.scale
  let inside (c : Nat) : Bool :=
    if x.mantissa % 2 = 0 then low * g.scale ≤ c * g.unit && c * g.unit ≤ high * g.scale
    else low * g.scale < c * g.unit && c * g.unit < high * g.scale
  let below := v / g.unit
  let above := below + 1
  match inside below && below ≠ 0, inside above with
  | true, true =>
    let down := v - below * g.unit
    let up := above * g.unit - v
    if down < up then some below
    else if up < down then some above
    else
      match tie with
      | .up => some above
      | .even => some (if below % 2 = 0 then below else above)
  | true, false => some below
  | false, true => some above
  | false, false => none

/-- The greatest `p` with `10 ^ p` at or below a positive finite number, from a first guess that
is at most `steps` too small. -/
def decimalExponent (x : Number) (guess : Int) : Nat → Int
  | 0 => guess
  | steps + 1 =>
    let g := Grid.of x.exponent (guess + 1)
    if g.unit ≤ 4 * x.mantissa * g.scale then decimalExponent x (guess + 1) steps else guess

/-- The first hit on the grids of `count`, `count + 1`, ... digits, the number having `p + 1`
digits before the point. -/
def searchGrids (tie : Tie) (x : Number) (p : Int) (count : Nat) : Nat → Decimal
  | 0 => ⟨0, 0⟩
  | steps + 1 =>
    let k := p - count + 1
    match nearestOn tie x k with
    | some c => ⟨c, k⟩
    | none => searchGrids tie x p (count + 1) steps

/-- Removes the trailing zeros of the digits; `fuel` bounds their number. -/
def Decimal.strip (d : Decimal) : Nat → Decimal
  | 0 => d
  | fuel + 1 =>
    if d.digits ≠ 0 ∧ d.digits % 10 = 0 then
      Decimal.strip ⟨d.digits / 10, d.exponent + 1⟩ fuel
    else d

/-- The decimal with the fewest digits among those that round to a positive finite number. -/
def shortest (tie : Tie) (x : Number) : Decimal :=
  let binary : Int := x.mantissa.log2 + x.exponent
  let guess := binary * 30103 / 100000 - 1
  Decimal.strip (searchGrids tie x (decimalExponent x guess 4) 1 18) 18

end Number

end ScriptEngine
