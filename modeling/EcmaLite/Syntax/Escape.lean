import EcmaLite.Number.Read

/-!
# Escapes in string literals

`Escape.decode` turns the text between the quotes of a string literal into the string it
denotes. A backslash and one of `n t r b f v 0` stand for a control character; `\xHH` and
`\uHHHH` for the character with that code, when exactly so many characters follow that read as a
hexadecimal numeral (a leading `+` allowed) naming a Unicode scalar value; otherwise the `x` or
`u` stands for itself and reading goes on right after it. A backslash before any other character
stands for that character, and a backslash at the very end for itself.
-/

namespace EcmaLite.Escape

/-- The character with code `n`, when `n` is a Unicode scalar value. -/
def scalar? (n : Nat) : Option Char :=
  if n < 0xD800 ∨ (0xDFFF < n ∧ n < 0x110000) then some (Char.ofNat n) else none

/-- The character named by a hexadecimal numeral (a leading `+` allowed). -/
def hexChar? (ds : List Char) : Option Char :=
  let digits := match ds with
    | '+' :: r => r
    | _ => ds
  (Number.hexValue? digits).bind scalar?

/-- The character a backslash and `c` stand for, when `c` is one of `n t r b f v 0`. -/
def control? (c : Char) : Option Char :=
  match c with
  | 'n' => some '\n'
  | 't' => some '\t'
  | 'r' => some '\r'
  | 'b' => some (Char.ofNat 8)
  | 'f' => some (Char.ofNat 12)
  | 'v' => some (Char.ofNat 11)
  | '0' => some (Char.ofNat 0)
  | _ => none

/-- The characters a string literal's body stands for. -/
def decode : List Char → List Char
  | [] => []
  | '\\' :: 'x' :: tail@(a :: b :: rest) =>
    match hexChar? [a, b] with
    | some d => d :: decode rest
    | none => 'x' :: decode tail
  | '\\' :: 'u' :: tail@(a :: b :: c :: e :: rest) =>
    match hexChar? [a, b, c, e] with
    | some d => d :: decode rest
    | none => 'u' :: decode tail
  | '\\' :: c :: rest => (control? c).getD c :: decode rest
  | c :: rest => c :: decode rest

/-- The string a string literal's body stands for. -/
def decodeString (body : String) : String := String.ofList (decode body.toList)

end EcmaLite.Escape
