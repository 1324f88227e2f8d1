import EcmaLite.Number.Read
import EcmaLite.Syntax.Ast

/-!
# Number literals

How the text of a number literal becomes a `NumLit`. A hexadecimal literal is an `int` when its
value is a signed 64-bit word; a larger one is accumulated digit by digit in double arithmetic.
A decimal literal with a point or an exponent is the nearest double; one without is an `int`
when it fits a signed 64-bit word and the nearest double otherwise.
-/

namespace EcmaLite.NumLit

/-- Hexadecimal digits accumulated in doubles: each step multiplies by sixteen and adds the
digit, rounding as double arithmetic does. -/
def foldHex (ds : List Char) : Float :=
  ds.foldl (fun acc c => acc * 16 + Float.ofNat ((Number.hexDigit? c).getD 0)) 0

/-- The literal a number literal's text denotes. -/
def ofText (text : String) : NumLit :=
  let cs := text.toList
  match cs with
  | '0' :: x :: ds =>
    if x = 'x' ∨ x = 'X' then
      match Number.hexValue? ds with
      | some v => if (v : Int) ≤ Number.wordMax then .int v else .float (foldHex ds)
      | none => .float (foldHex ds)
    else decimal cs
  | _ => decimal cs
where
  /-- A decimal literal. -/
  decimal (cs : List Char) : NumLit :=
    let nearest := (Number.decimal? cs).getD (Float.ofBits 0x7FF8000000000000)
    if cs.any (fun c => c = '.' ∨ c = 'e' ∨ c = 'E') then .float nearest
    else if cs.all Char.isDigit ∧ (Number.digitsValue cs : Int) ≤ Number.wordMax then
      .int (Number.digitsValue cs)
    else .float nearest

/-- The property key of a number literal in an object literal: the decimal of an `int`, the
shortest positional text of a `float` (`inf` for infinity). -/
def keyText : NumLit → String
  | .int i => toString i
  | .float f => Double.shortestText f

end EcmaLite.NumLit
