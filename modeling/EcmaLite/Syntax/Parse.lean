import EcmaLite.Syntax.Build

/-!
# Reading scripts

`Program.parse` reads a whole script, or reports where and why it could not: at the furthest
position any rule reached, the rules that could have gone on there, with line and column.
-/

namespace EcmaLite

/-- Why a script could not be read, and where: line and column count from 1, columns in
characters. -/
structure ParseError where
  message : String
  line : Nat
  column : Nat
  deriving Inhabited

namespace ParseError

/-- The report of a failed parse of `src`: the rules expected at the failure position, in the
grammar's order. -/
def ofFailure (src : Source) (f : Peg.Failure Rule) : ParseError :=
  let (line, column) := Peg.lineColumn src.chars f.pos
  let message :=
    if f.expected.isEmpty then "Unexpected token"
    else "Unexpected token, expected one of [" ++ ", ".intercalate (f.expected.map Rule.name) ++ "]"
  ⟨message, line, column⟩

/-- The report with its position: `message (line L, column C)`. -/
def describe (e : ParseError) : String :=
  e.message ++ " (line " ++ toString e.line ++ ", column " ++ toString e.column ++ ")"

end ParseError

/-- Reads a whole script. -/
def Program.parse (text : String) : Except ParseError Program :=
  let src := Source.ofString text
  match Peg.parse scriptGrammar .script src.chars with
  | .error f => .error (ParseError.ofFailure src f)
  | .ok nodes =>
    match Program.ofNodes? src nodes with
    | some p => .ok p
    | none => .error ⟨"Unexpected end of construct", 1, 1⟩

end EcmaLite
