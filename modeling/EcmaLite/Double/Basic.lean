/-!
# Doubles as exact numbers

IEEE-754 binary64 values read through their bits. A finite double is `±m · 2^e` with a natural
mantissa `m` and an exponent `e` (`parts`). In the other direction `ofRatio` rounds a
non-negative fraction to the nearest double, a tie going to the even mantissa, with gradual
underflow and overflow to infinity; numbers read from decimal text (`ofDecimal`) and whole
numbers (`ofInt`) go through it, so they are correctly rounded. The remainder `rem` is exact,
as IEEE-754 requires, and so is computed on the mantissas.

Arithmetic of the machine (`+`, `-`, `*`, `/`, comparisons) stays the arithmetic of `Float`.
-/

namespace EcmaLite.Double

/-- `2^52`, the weight of the implicit leading bit of a normal mantissa. -/
def hidden : Nat := Nat.pow 2 52

/-- Whether the sign bit is set (also for `-0` and negative NaNs). -/
def signBit (x : Float) : Bool := x.toBits >>> 63 == 1

/-- The biased exponent field, 0 to 2047. -/
def expField (x : Float) : Nat := ((x.toBits >>> 52) &&& 0x7FF).toNat

/-- The fraction field, below `2^52`. -/
def fracField (x : Float) : Nat := (x.toBits &&& 0xFFFFFFFFFFFFF).toNat

/-- The magnitude of a finite double as `m · 2^e`: `m < 2^53`, and `m ≥ 2^52` unless the value
is subnormal, in which case `e = -1074`. -/
def parts (x : Float) : Nat × Int :=
  if expField x = 0 then (fracField x, -1074)
  else (fracField x + hidden, (expField x : Int) - 1075)

/-- Positive infinity. -/
def posInf : Float := Float.ofBits 0x7FF0000000000000

/-- Negative infinity. -/
def negInf : Float := Float.ofBits 0xFFF0000000000000

/-- Zero with the given sign. -/
def zero (neg : Bool) : Float := Float.ofBits (if neg then 0x8000000000000000 else 0)

/-- The double `±m · 2^e`, for `2^52 ≤ m < 2^53` and `-1074 ≤ e ≤ 971`, or `m < 2^52` and
`e = -1074`. -/
def encode (neg : Bool) (m : Nat) (e : Int) : Float :=
  let mag := if m < hidden then m else (e + 1075).toNat * hidden + (m - hidden)
  Float.ofBits (UInt64.ofNat ((if neg then Nat.pow 2 63 else 0) + mag))

/-- `⌊log₂ (num / den)⌋` for positive `num` and `den`. -/
def floorLog2 (num den : Nat) : Int :=
  let k : Int := (Nat.log2 num : Int) - Nat.log2 den
  if num * Nat.pow 2 (-k).toNat ≥ den * Nat.pow 2 k.toNat then k else k - 1

/-- `num / den` (with `den > 0`) rounded to the nearest double of the given sign: ties go to
the even mantissa, values beyond the largest finite double become infinite. -/
def ofRatio (neg : Bool) (num den : Nat) : Float :=
  if num = 0 then zero neg
  else
    let e : Int := max (floorLog2 num den - 52) (-1074)
    let num' := num * Nat.pow 2 (-e).toNat
    let den' := den * Nat.pow 2 e.toNat
    let q := num' / den'
    let r := num' % den'
    let q := if 2 * r > den' ∨ (2 * r = den' ∧ q % 2 = 1) then q + 1 else q
    let (m, e) := if q = 2 * hidden then (hidden, e + 1) else (q, e)
    if e > 971 then (if neg then negInf else posInf) else encode neg m e

/-- The number of decimal digits of `n` (one for zero). -/
def digitCount (n : Nat) : Nat := (Nat.toDigits 10 n).length

/-- The double nearest to `m · 10^e`. Exponents far beyond the range of doubles are settled
without computing the power: such values are infinite or zero. -/
def ofDecimal (m : Nat) (e : Int) : Float :=
  if m = 0 then zero false
  else if (digitCount m : Int) + e > 400 then posInf
  else if (digitCount m : Int) + e < -400 then zero false
  else ofRatio false (m * Nat.pow 10 e.toNat) (Nat.pow 10 (-e).toNat)

/-- The double nearest to a whole number. Below `2^53` in magnitude the number is a double
exactly: its leading bit is moved to the place of the hidden bit. -/
def ofInt (i : Int) : Float :=
  let m := i.natAbs
  if 0 < m ∧ m < 2 * hidden then
    let k := Nat.log2 m
    encode (i < 0) (m <<< (52 - k)) ((k : Int) - 52)
  else ofRatio (i < 0) m 1

/-- Whether a double is a NaN. -/
def isNaN (x : Float) : Bool := expField x = 2047 ∧ fracField x ≠ 0

/-- Whether a double is infinite. -/
def isInfinite (x : Float) : Bool := expField x = 2047 ∧ fracField x = 0

/-- Whether a double is neither infinite nor NaN. -/
def isFinite (x : Float) : Bool := expField x ≠ 2047

/-- Whether a finite double is a whole number. -/
def isIntegral (x : Float) : Bool :=
  let (m, e) := parts x
  e ≥ 0 ∨ m % Nat.pow 2 (-e).toNat = 0

/-- The whole number a finite, integral double denotes. -/
def toInt (x : Float) : Int :=
  let (m, e) := parts x
  let n := m * Nat.pow 2 e.toNat / Nat.pow 2 (-e).toNat
  if signBit x then -(n : Int) else n

/-- The exact magnitude `m · 2^e` of a finite double as the fraction `num / den`. -/
def ratio (x : Float) : Nat × Nat :=
  let (m, e) := parts x
  (m * Nat.pow 2 e.toNat, Nat.pow 2 (-e).toNat)

/-- The remainder of `x` divided by `y`, truncating the quotient toward zero: the result has the
sign of `x` and is smaller in magnitude than `y`. It is NaN when `x` is infinite or `y` is zero,
and `x` itself when `y` is infinite or `x` is zero. -/
def rem (x y : Float) : Float :=
  if isNaN x ∨ isNaN y ∨ isInfinite x ∨ (isFinite y ∧ parts y = (0, -1074)) then
    Float.ofBits 0x7FF8000000000000
  else if isInfinite y ∨ parts x = (0, -1074) then x
  else
    let (mx, ex) := parts x
    let (my, ey) := parts y
    let e := min ex ey
    let r := (mx * Nat.pow 2 (ex - e).toNat) % (my * Nat.pow 2 (ey - e).toNat)
    ofRatio (signBit x) (r * Nat.pow 2 e.toNat) (Nat.pow 2 (-e).toNat)

/-- The bit pattern of a double as 16 lowercase hexadecimal digits, leading zeros kept. -/
def bitsText (x : Float) : String :=
  let ds := Nat.toDigits 16 x.toBits.toNat
  String.ofList (List.replicate (16 - ds.length) '0' ++ ds)

end EcmaLite.Double
