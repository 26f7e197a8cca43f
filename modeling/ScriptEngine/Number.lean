/-!
# Numbers

A number is an IEEE 754 double kept as its bit pattern, so that every distinction the format
makes (the sign of a zero, the sign of a NaN) is a distinction between values. The class of a
number and its exact value are read off the fields of the pattern: a finite number is
`± mantissa * 2 ^ exponent`.

`ofRatio` rounds a quotient of naturals to the nearest number, a half going to the even
neighbour; reading decimal text and the exact remainder rest on it. The four operations use the
machine's arithmetic, with one rule for results that are not numbers: a NaN operand passes
through, the first one first, and an invalid operation gives the NaN whose sign bit is set.
-/

namespace ScriptEngine

/-- A double, as its bit pattern. -/
structure Number where
  bits : UInt64
  deriving DecidableEq, Inhabited

namespace Number

/-! ## Fields and classes -/

def isNegative (x : Number) : Bool :=
  x.bits >>> 63 = 1

/-- The biased exponent field. -/
def exponentField (x : Number) : Nat :=
  ((x.bits >>> 52) &&& 0x7FF).toNat

/-- The trailing significand field. -/
def fraction (x : Number) : Nat :=
  (x.bits &&& 0xFFFFFFFFFFFFF).toNat

def isNaN (x : Number) : Bool :=
  x.exponentField = 2047 && x.fraction ≠ 0

def isInfinite (x : Number) : Bool :=
  x.exponentField = 2047 && x.fraction = 0

def isFinite (x : Number) : Bool :=
  x.exponentField < 2047

/-- Whether a number is one of the two zeros. -/
def isZero (x : Number) : Bool :=
  x.bits &&& 0x7FFFFFFFFFFFFFFF = 0

/-- The integer significand of a finite number. -/
def mantissa (x : Number) : Nat :=
  if x.exponentField = 0 then x.fraction else Nat.pow 2 52 + x.fraction

/-- The power of two that scales the significand of a finite number. -/
def exponent (x : Number) : Int :=
  (max x.exponentField 1 : Nat) - 1075

def zero : Number := ⟨0⟩
def one : Number := ⟨0x3FF0000000000000⟩

/-- The quiet NaN with the sign bit clear. -/
def nan : Number := ⟨0x7FF8000000000000⟩

/-- The quiet NaN with the sign bit set, the result of an invalid operation. -/
def invalid : Number := ⟨0xFFF8000000000000⟩

/-- Sets the sign bit if asked to. -/
def withSign (negative : Bool) (x : Number) : Number :=
  if negative then ⟨x.bits ||| 0x8000000000000000⟩ else x

def infinity (negative : Bool) : Number :=
  withSign negative ⟨0x7FF0000000000000⟩

/-! ## Rounding a quotient -/

/-- The power of two at or below `num / den`, for positive `num` and `den`. -/
def log2Ratio (num den : Nat) : Int :=
  let e : Int := num.log2 - den.log2
  if den * Nat.pow 2 e.toNat ≤ num * Nat.pow 2 (-e).toNat then e else e - 1

/-- The quotient of two naturals rounded to the nearest integer, a half to the even one. -/
def roundDiv (num den : Nat) : Nat :=
  let q := num / den
  let r := num % den
  if den < 2 * r ∨ (den = 2 * r ∧ q % 2 = 1) then q + 1 else q

/-- The number nearest to `± num / den`, a half going to the even neighbour. The result is
infinite when the quotient lies beyond the finite numbers. -/
def ofRatio (negative : Bool) (num den : Nat) : Number :=
  if num = 0 then withSign negative zero
  else
    let scale : Int := max (log2Ratio num den - 52) (-1074)
    let q := roundDiv (num * Nat.pow 2 (-scale).toNat) (den * Nat.pow 2 scale.toNat)
    let pattern := (scale + 1074).toNat * Nat.pow 2 52 + q
    if pattern < 0x7FF0000000000000 then withSign negative ⟨pattern.toUInt64⟩
    else infinity negative

/-! ## Whole numbers -/

/-- The number nearest to a whole number. -/
def ofInt (n : Int) : Number :=
  ofRatio (n < 0) n.natAbs 1

def ofNat (n : Nat) : Number :=
  ofInt n

/-- The whole part of a finite number, toward zero. -/
def truncate (x : Number) : Int :=
  let e := x.exponent
  let whole := if 0 ≤ e then x.mantissa <<< e.toNat else x.mantissa >>> (-e).toNat
  if x.isNegative then -(whole : Int) else whole

/-- Whether a number is finite and has no fractional part. -/
def isWhole (x : Number) : Bool :=
  let e := x.exponent
  x.isFinite &&
    (0 ≤ e || (x.mantissa >>> (-e).toNat) <<< (-e).toNat = x.mantissa)

/-- The whole part as a 32-bit integer: a number out of range gives the nearest end, a NaN
zero. -/
def toInt32 (x : Number) : Int32 :=
  if x.isNaN then 0
  else if x.isInfinite then (if x.isNegative then Int32.minValue else Int32.maxValue)
  else Int32.ofInt (max Int32.minValue.toInt (min Int32.maxValue.toInt x.truncate))

/-! ## Arithmetic -/

def toFloat (x : Number) : Float :=
  Float.ofBits x.bits

/-- The NaN that an operation on `x` and `y` gives. -/
def invalidOf (x y : Number) : Number :=
  if x.isNaN then x else if y.isNaN then y else invalid

/-- An operation of the machine, with the rule for results that are not numbers. -/
def arith (f : Float → Float → Float) (x y : Number) : Number :=
  let r := f x.toFloat y.toFloat
  if r.isNaN then invalidOf x y else ⟨r.toBits⟩

def add (x y : Number) : Number := arith Float.add x y
def sub (x y : Number) : Number := arith Float.sub x y
def mul (x y : Number) : Number := arith Float.mul x y
def div (x y : Number) : Number := arith Float.div x y

/-- Flips the sign bit. -/
def neg (x : Number) : Number :=
  ⟨x.bits ^^^ 0x8000000000000000⟩

/-- The remainder of the division of `x` by `y` whose quotient goes toward zero. It is exact and
has the sign of `x`. -/
def rem (x y : Number) : Number :=
  if x.isNaN || y.isNaN || x.isInfinite || y.isZero then invalidOf x y
  else if y.isInfinite then x
  else
    let e := min x.exponent y.exponent
    let r := (x.mantissa <<< (x.exponent - e).toNat) % (y.mantissa <<< (y.exponent - e).toNat)
    ofRatio x.isNegative (r * Nat.pow 2 e.toNat) (Nat.pow 2 (-e).toNat)

/-! ## Comparison -/

def abs (x : Number) : Number :=
  ⟨x.bits &&& 0x7FFFFFFFFFFFFFFF⟩

/-- The place of a number in the total order of bit patterns: negative NaNs, then the numbers in
order with the negative zero before the positive one, then positive NaNs. -/
def orderKey (x : Number) : Int :=
  if x.isNegative then -(x.abs.bits.toNat : Int) - 1 else x.bits.toNat

def totalCompare (x y : Number) : Ordering :=
  compare x.orderKey y.orderKey

/-- Whether `x` is below `y`. A NaN is below nothing and above nothing, and the zeros are equal. -/
def lt (x y : Number) : Bool :=
  !x.isNaN && !y.isNaN && !(x.isZero && y.isZero) && x.orderKey < y.orderKey

/-- Whether `x` is below `y` or equal to it. -/
def le (x y : Number) : Bool :=
  !x.isNaN && !y.isNaN && (x.isZero && y.isZero || x.orderKey ≤ y.orderKey)

/-- Numbers closer than this count as equal: 10⁻⁹. -/
def epsilon : Number := ⟨0x3E112E0BE826D695⟩

/-- Whether two numbers are closer than `epsilon`. -/
def close (x y : Number) : Bool :=
  (x.sub y).abs.lt epsilon

end Number

end ScriptEngine
