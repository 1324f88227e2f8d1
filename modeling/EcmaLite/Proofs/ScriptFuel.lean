import EcmaLite.Proofs.PegFuel
import EcmaLite.Syntax.Parse

/-!
# Fuel for scripts

The script grammar has a fuel plan (`scriptFuelPlan`): three rules may read nothing (`eoi`,
`script` and `formal_parameters`), a call of each rule needs a fixed amount of fuel before it
reads (`Rule.fuelNeed`, at most 80), and a character costs at most 80 units. `parse` pays 8192
units per character, so no script is misread for want of fuel: the nodes of every parse are
settled, each what its rule's body gives for good (`parse_settled`), and so are their children.
-/

namespace EcmaLite

namespace Rule

/-- The rules that may succeed without reading: the end of the input, a script, which may be
empty, and a parameter list, which may be empty. -/
def nullable : Rule → Bool
  | eoi | script | formalParameters => true
  | _ => false

/-- The fuel a call of each rule needs before it reads a character: one more than its body
needs, through the rules it calls at its own position. -/
def fuelNeed : Rule → Nat
  | eoi | emptyStatement => 2
  | nullLiteral | escapeSequence | thisExpression | arrayLiteral | objectLiteral | functionBody
  | arguments | dotMember | computedMember | postfixOperator | blockStatement => 3
  | comment | identStart | booleanLiteral | hexIntegerLiteral | exponentPart | stringLiteral
  | additiveOperator => 4
  | identPart | multiplicativeOperator | equalityOperator => 5
  | identifierName | decimalLiteral => 6
  | whitespace => 7
  | relationalOperator | assignmentOperator => 8
  | numericLiteral => 9
  | unaryOperator => 10
  | propertyAssignment => 13
  | keyword => 21
  | identifier => 24
  | functionExpression | newMember | newNoArgs | variableStatement | ifStatement | whileStatement
  | forStatement | breakStatement | continueStatement | returnStatement | functionDeclaration => 25
  | variableDeclaration => 26
  | formalParameters => 27
  | variableDeclarationList => 28
  | primaryExpression => 32
  | memberExpression => 35
  | lhsExpression => 38
  | postfixExpression => 40
  | unaryExpression => 43
  | multiplicativeExpression => 45
  | additiveExpression => 47
  | relationalExpression => 49
  | equalityExpression => 51
  | logicalAndExpression => 53
  | logicalOrExpression => 55
  | conditionalExpression => 57
  | assignmentExpression => 59
  | expression => 61
  | forTest | forUpdate => 62
  | forInit | expressionStatement => 63
  | statement => 74
  | script => 80

end Rule

/-- The fuel plan of the script grammar: blanks need 9 units before they read, and a character
costs 80. Each condition is checked rule by rule. -/
def scriptFuelPlan : Peg.FuelPlan scriptGrammar where
  nullable := Rule.nullable
  need := Rule.fuelNeed
  blankNeed := 9
  perChar := 80
  nullable_of_body := by intro r; cases r <;> decide
  need_body := by intro r; cases r <;> decide
  need_blank := by decide
  maxNeed_body := by intro r; cases r <;> decide
  maxNeed_blank := by decide
  need_le := by intro r; cases r <;> decide

/-- The nodes of a parse of a script are settled: each is what its rule's body gives for good
from the node's start. -/
theorem parse_settled {src : Array Char} {nodes : List (Peg.Node Rule)}
    (h : Peg.parse scriptGrammar .script src = .ok nodes) :
    ∀ nd ∈ nodes, nd.Settled scriptGrammar src :=
  (scriptFuelPlan.parse_ok_settled (by decide) h).2

/-- A script that reads is built from the nodes of a parse. -/
theorem Program.parse_eq_ok {text : String} {prog : Program} (h : Program.parse text = .ok prog) :
    ∃ nodes, Peg.parse scriptGrammar .script (Source.ofString text).chars = .ok nodes ∧
      Program.ofNodes? (Source.ofString text) nodes = some prog := by
  simp only [Program.parse] at h
  split at h
  · cases h
  · next nodes hparse =>
    refine ⟨nodes, hparse, ?_⟩
    split at h
    · next p hp => cases h; exact hp
    · cases h

end EcmaLite
