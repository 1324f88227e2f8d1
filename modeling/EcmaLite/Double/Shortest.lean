import EcmaLite.Double.Basic

/-!
# Shortest decimal text of a double

`shortest x` gives, for a finite positive double `x`, the decimal `d · 10^t` with the fewest
significant digits that reads back as `x`. The reals that read back as `x` form an interval
around it (`Bounds`): half a unit of the last place on either side, a quarter on the lower side
when the mantissa is the smallest normal one, ends included when the mantissa is even. For
`n = 1, 2, …` the two neighbours of `x` on the grid of `n`-digit decimals are tested; the first
`n` with a neighbour inside wins, and of two neighbours inside the nearer one, the upper one on
a tie.

`plainText` writes such a decimal in positional notation, never with an exponent.
-/

namespace EcmaLite.Double

/-- The interval of reals that read back as a double, scaled to integers: the double is
`mid · 2^scale`, the interval runs from `(mid - below) · 2^scale` to `(mid + above) · 2^scale`,
and `closed` says whether its ends belong to it. -/
structure Bounds where
  mid : Nat
  below : Nat
  above : Nat
  scale : Int
  closed : Bool

/-- The rounding interval of a finite positive double. -/
def bounds (x : Float) : Bounds :=
  let (m, e) := parts x
  if expField x ≠ 0 ∧ fracField x = 0 then ⟨4 * m, 1, 2, e - 2, m % 2 = 0⟩
  else ⟨2 * m, 1, 1, e - 1, m % 2 = 0⟩

/-- Powers of two and ten that turn a point `k · 10^t` and the interval of `b` into integers over
one denominator: the point is `k * pointScale` and an interval value `v` is `v * boundScale`. -/
def commonScales (b : Bounds) (t : Int) : Nat × Nat :=
  (Nat.pow 10 t.toNat * Nat.pow 2 (-b.scale).toNat, Nat.pow 10 (-t).toNat * Nat.pow 2 b.scale.toNat)

/-- Whether `k · 10^t` reads back as the double of `b`. -/
def Bounds.holds (b : Bounds) (k : Nat) (t : Int) : Bool :=
  let (ps, bs) := commonScales b t
  let p := k * ps
  let lo := (b.mid - b.below) * bs
  let hi := (b.mid + b.above) * bs
  if b.closed then lo ≤ p ∧ p ≤ hi else lo < p ∧ p < hi

/-- `⌊x / 10^t⌋` for the double `mid · 2^scale` of `b`. -/
def Bounds.floorAt (b : Bounds) (t : Int) : Nat :=
  let (ps, bs) := commonScales b t
  b.mid * bs / ps

/-- Whether `(k + 1) · 10^t` is strictly nearer to the double than `k · 10^t` is, or as near. -/
def Bounds.upperNearer (b : Bounds) (k : Nat) (t : Int) : Bool :=
  let (ps, bs) := commonScales b t
  let v := b.mid * bs
  (k + 1) * ps - v ≤ v - k * ps

/-- The exponent `E` with `10^E ≤ x < 10^(E+1)`, for a finite positive double. -/
def decimalExponent (x : Float) : Int :=
  let (num, den) := ratio x
  (digitCount (num * Nat.pow 10 400 / den) : Int) - 401

/-- Removes trailing zero digits: `d · 10^t` written with the fewest digits. -/
def trimZeros : Nat → Nat → Int → Nat × Int
  | 0, d, t => (d, t)
  | fuel + 1, d, t => if d ≠ 0 ∧ d % 10 = 0 then trimZeros fuel (d / 10) (t + 1) else (d, t)

/-- The shortest decimal `d · 10^t` that reads back as the finite positive double `x`; of two
such, the nearer, and the upper one when both are as near. -/
def shortest (x : Float) : Nat × Int :=
  let b := bounds x
  let top := decimalExponent x
  let pick (n : Nat) : Option (Nat × Int) :=
    let t := top - n + 1
    let k := b.floorAt t
    let down := b.holds k t
    let up := b.holds (k + 1) t
    if down ∧ up then some (if b.upperNearer k t then k + 1 else k, t)
    else if down then some (k, t)
    else if up then some (k + 1, t)
    else none
  let found := ((List.range 17).map (· + 1)).findSome? pick
  let (d, t) := found.getD (b.floorAt (top - 16), top - 16)
  trimZeros 400 d t

/-- `d · 10^t` in positional notation: digits, a point only when a fraction is left, and zeros
as needed on either side. -/
def plainText (d : Nat) (t : Int) : String :=
  let ds := Nat.toDigits 10 d
  let point : Int := t + ds.length
  if point ≤ 0 then
    "0." ++ String.ofList (List.replicate (-point).toNat '0' ++ ds)
  else if point < ds.length then
    String.ofList (ds.take point.toNat ++ '.' :: ds.drop point.toNat)
  else
    String.ofList (ds ++ List.replicate (point.toNat - ds.length) '0')

/-- The shortest positional text of a double: a minus sign for a set sign bit, `0` for zeros,
`inf` and `NaN` for the others. -/
def shortestText (x : Float) : String :=
  let sign := if signBit x then "-" else ""
  if isNaN x then "NaN"
  else if isInfinite x then sign ++ "inf"
  else if parts x = (0, -1074) then sign ++ "0"
  else
    let (d, t) := shortest x
    sign ++ plainText d t

end EcmaLite.Double
