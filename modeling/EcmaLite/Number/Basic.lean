import EcmaLite.Double.Shortest

/-!
# Numbers of the script language

A number is a whole number (`int`, a signed 64-bit word), a double (`float`), NaN or one of the
infinities. Results of arithmetic are doubles brought into *normal form* by `Number.ofFloat`:
NaN and the infinities become their own variants, and a finite whole double of magnitude at
most `2^53 - 1` other than `-0` becomes an `int`. Hosts and hexadecimal strings can still
produce `int`s outside that range, since they skip the normal form.

The text of a number (`Number.toText`) is the decimal of an `int`, the shortest positional
decimal of a `float` (`0` for both zeros), and `NaN`, `Infinity`, `-Infinity`.
-/

namespace EcmaLite

/-- A number of the script language. -/
inductive Number where
  | int (i : Int)
  | float (f : Float)
  | nan
  | posInf
  | negInf
  deriving Inhabited

namespace Number

/-- The largest magnitude up to which every whole number is a double: `2^53 - 1`. -/
def maxSafe : Nat := Nat.pow 2 53 - 1

/-- The normal form of a double. -/
def ofFloat (f : Float) : Number :=
  if Double.isNaN f then .nan
  else if Double.isInfinite f then (if Double.signBit f then .negInf else .posInf)
  else if Double.isIntegral f ∧ (Double.toInt f).natAbs ≤ maxSafe
      ∧ ¬(Double.signBit f ∧ Double.parts f = (0, -1074)) then
    .int (Double.toInt f)
  else .float f

/-- The double a number stands for; an `int` is rounded to the nearest double. -/
def toFloat : Number → Float
  | .int i => Double.ofInt i
  | .float f => f
  | .nan => Float.ofBits 0x7FF8000000000000
  | .posInf => Double.posInf
  | .negInf => Double.negInf

/-- Whether a number is zero (of either sign). -/
def isZero : Number → Bool
  | .int i => i == 0
  | .float f => Double.parts f = (0, -1074)
  | _ => false

/-- The text of a number. -/
def toText : Number → String
  | .int i => toString i
  | .float f => if Double.parts f = (0, -1074) then "0" else Double.shortestText f
  | .nan => "NaN"
  | .posInf => "Infinity"
  | .negInf => "-Infinity"

end Number

end EcmaLite
