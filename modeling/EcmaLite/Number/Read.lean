import EcmaLite.Number.Basic

/-!
# Reading numbers from text

`Number.ofText` is the numeric value of a string. Surrounding Unicode white space is ignored and
an empty rest is `0`. After a `0x` or `0X` prefix comes a hexadecimal numeral with an optional
sign, read as a signed 64-bit word (`int`); one that does not fit is NaN. `Infinity`,
`+Infinity` and `-Infinity` name the infinities. Any other text must be a decimal numeral
`[+-]? (D+ | D+ . D* | D* . D+) ([eE] [+-]? D+)?`, read to the nearest double and brought into
normal form; everything else is NaN.
-/

namespace EcmaLite.Number

/-- The value of a run of decimal digits. -/
def digitsValue (ds : List Char) : Nat :=
  ds.foldl (fun acc c => acc * 10 + (c.toNat - '0'.toNat)) 0

/-- The value of a hexadecimal digit. -/
def hexDigit? (c : Char) : Option Nat :=
  if '0' ≤ c ∧ c ≤ '9' then some (c.toNat - '0'.toNat)
  else if 'a' ≤ c ∧ c ≤ 'f' then some (c.toNat - 'a'.toNat + 10)
  else if 'A' ≤ c ∧ c ≤ 'F' then some (c.toNat - 'A'.toNat + 10)
  else none

/-- The value of a non-empty run of hexadecimal digits. -/
def hexValue? (ds : List Char) : Option Nat :=
  if ds.isEmpty then none
  else ds.foldlM (fun acc c => (hexDigit? c).map (acc * 16 + ·)) 0

/-- The least signed 64-bit word. -/
def wordMin : Int := -((Nat.pow 2 63 : Nat) : Int)

/-- The greatest signed 64-bit word. -/
def wordMax : Int := ((Nat.pow 2 63 - 1 : Nat) : Int)

/-- A hexadecimal numeral with an optional sign, when its value is a signed 64-bit word. -/
def signedHex? (cs : List Char) : Option Int :=
  let (neg, ds) := match cs with
    | '+' :: r => (false, r)
    | '-' :: r => (true, r)
    | _ => (false, cs)
  (hexValue? ds).bind fun v =>
    let i : Int := if neg then -(v : Int) else v
    if wordMin ≤ i ∧ i ≤ wordMax then some i else none

/-- A run of decimal digits at the front, and the rest. -/
def spanDigits (cs : List Char) : List Char × List Char :=
  (cs.takeWhile Char.isDigit, cs.dropWhile Char.isDigit)

/-- The exponent of `[eE] [+-]? D+`, or `0` for no text at all. -/
def exponent? : List Char → Option Int
  | [] => some 0
  | c :: r =>
    if c = 'e' ∨ c = 'E' then
      let (neg, ds) := match r with
        | '+' :: r => (false, r)
        | '-' :: r => (true, r)
        | _ => (false, r)
      if ds.isEmpty ∨ !ds.all Char.isDigit then none
      else some (if neg then -(digitsValue ds : Int) else digitsValue ds)
    else none

/-- The nearest double to `m · 10^(e - k)`, for the digits `m` with `k` of them after the point
and the exponent text `rest`. -/
def scaled? (whole frac rest : List Char) : Option Float :=
  (exponent? rest).map fun e => Double.ofDecimal (digitsValue (whole ++ frac)) (e - frac.length)

/-- The nearest double to the whole text `(D+ | D+ . D* | D* . D+) ([eE] [+-]? D+)?`. -/
def unsignedDecimal? (cs : List Char) : Option Float :=
  let (whole, rest) := spanDigits cs
  match rest with
  | '.' :: r =>
    let (frac, rest) := spanDigits r
    if whole.isEmpty ∧ frac.isEmpty then none else scaled? whole frac rest
  | _ => if whole.isEmpty then none else scaled? whole [] rest

/-- The nearest double to the whole text, a decimal numeral with an optional sign. -/
def decimal? : List Char → Option Float
  | '+' :: r => unsignedDecimal? r
  | '-' :: r => (unsignedDecimal? r).map (- ·)
  | cs => unsignedDecimal? cs

/-- Characters with the Unicode `White_Space` property. -/
def isWhiteSpace (c : Char) : Bool :=
  let n := c.toNat
  (0x09 ≤ n ∧ n ≤ 0x0D) ∨ n = 0x20 ∨ n = 0x85 ∨ n = 0xA0 ∨ n = 0x1680
    ∨ (0x2000 ≤ n ∧ n ≤ 0x200A) ∨ n = 0x2028 ∨ n = 0x2029 ∨ n = 0x202F ∨ n = 0x205F
    ∨ n = 0x3000

/-- The text without white space at either end. -/
def trimWhiteSpace (cs : List Char) : List Char :=
  ((cs.dropWhile isWhiteSpace).reverse.dropWhile isWhiteSpace).reverse

/-- Whether a character may occur in a decimal numeral. -/
def isNumeralChar (c : Char) : Bool :=
  c.isDigit ∨ c = '.' ∨ c = 'e' ∨ c = 'E' ∨ c = '+' ∨ c = '-'

/-- The numeric value of a string. -/
def ofText (s : String) : Number :=
  match trimWhiteSpace s.toList with
  | [] => .int 0
  | t@(c :: rest) =>
    match c, rest with
    | '0', x :: ds =>
      if x = 'x' ∨ x = 'X' then
        match signedHex? ds with
        | some i => .int i
        | none => .nan
      else ofDecimalText t
    | _, _ => ofDecimalText t
where
  ofDecimalText (t : List Char) : Number :=
    if t = "Infinity".toList ∨ t = "+Infinity".toList then .posInf
    else if t = "-Infinity".toList then .negInf
    else if !t.all isNumeralChar then .nan
    else match decimal? t with
      | some f => ofFloat f
      | none => .nan

end EcmaLite.Number
