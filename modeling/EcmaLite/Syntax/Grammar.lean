import EcmaLite.Peg

/-!
# The script grammar

The rules of the script language as a `Peg.Grammar`. Rules are listed in the order failure
reports use; `Rule.name` is the name a report prints.

Lexical rules (identifiers, literals, operators) are atomic, so blanks never split a token, and
keywords are whole words: `keyword` fails when a letter, digit, `_` or `$` follows. Statements
and expressions are visible rules whose nodes the syntax-tree builder reads; `statement` and
`primary_expression` only choose, and make no node of their own.
-/

namespace EcmaLite

/-- The rules of the script grammar, in report order. -/
inductive Rule where
  | eoi | whitespace | comment | script | identStart | identPart | keyword | identifier
  | identifierName | nullLiteral | booleanLiteral | numericLiteral | hexIntegerLiteral
  | decimalLiteral | exponentPart | stringLiteral | escapeSequence | thisExpression
  | primaryExpression | arrayLiteral | objectLiteral | propertyAssignment | functionExpression
  | formalParameters | functionBody | arguments | dotMember | computedMember | newMember
  | newNoArgs | memberExpression | lhsExpression | postfixExpression | postfixOperator
  | unaryExpression | unaryOperator | multiplicativeExpression | multiplicativeOperator
  | additiveExpression | additiveOperator | relationalExpression | relationalOperator
  | equalityExpression | equalityOperator | logicalAndExpression | logicalOrExpression
  | conditionalExpression | assignmentExpression | assignmentOperator | expression | statement
  | blockStatement | variableStatement | variableDeclarationList | variableDeclaration
  | emptyStatement | ifStatement | whileStatement | forStatement | forInit | forTest
  | forUpdate | breakStatement | continueStatement | returnStatement | functionDeclaration
  | expressionStatement
  deriving DecidableEq, Inhabited

namespace Rule

instance : BEq Rule := ⟨fun a b => decide (a = b)⟩

/-- The name of a rule in failure reports. -/
def name : Rule → String
  | eoi => "EOI"
  | whitespace => "WHITESPACE"
  | comment => "COMMENT"
  | script => "script"
  | identStart => "ident_start"
  | identPart => "ident_part"
  | keyword => "keyword"
  | identifier => "identifier"
  | identifierName => "identifier_name"
  | nullLiteral => "null_literal"
  | booleanLiteral => "boolean_literal"
  | numericLiteral => "numeric_literal"
  | hexIntegerLiteral => "hex_integer_literal"
  | decimalLiteral => "decimal_literal"
  | exponentPart => "exponent_part"
  | stringLiteral => "string_literal"
  | escapeSequence => "escape_sequence"
  | thisExpression => "this_expression"
  | primaryExpression => "primary_expression"
  | arrayLiteral => "array_literal"
  | objectLiteral => "object_literal"
  | propertyAssignment => "property_assignment"
  | functionExpression => "function_expression"
  | formalParameters => "formal_parameters"
  | functionBody => "function_body"
  | arguments => "arguments"
  | dotMember => "dot_member"
  | computedMember => "computed_member"
  | newMember => "new_member"
  | newNoArgs => "new_no_args"
  | memberExpression => "member_expression"
  | lhsExpression => "lhs_expression"
  | postfixExpression => "postfix_expression"
  | postfixOperator => "postfix_operator"
  | unaryExpression => "unary_expression"
  | unaryOperator => "unary_operator"
  | multiplicativeExpression => "multiplicative_expression"
  | multiplicativeOperator => "multiplicative_operator"
  | additiveExpression => "additive_expression"
  | additiveOperator => "additive_operator"
  | relationalExpression => "relational_expression"
  | relationalOperator => "relational_operator"
  | equalityExpression => "equality_expression"
  | equalityOperator => "equality_operator"
  | logicalAndExpression => "logical_and_expression"
  | logicalOrExpression => "logical_or_expression"
  | conditionalExpression => "conditional_expression"
  | assignmentExpression => "assignment_expression"
  | assignmentOperator => "assignment_operator"
  | expression => "expression"
  | statement => "statement"
  | blockStatement => "block_statement"
  | variableStatement => "variable_statement"
  | variableDeclarationList => "variable_declaration_list"
  | variableDeclaration => "variable_declaration"
  | emptyStatement => "empty_statement"
  | ifStatement => "if_statement"
  | whileStatement => "while_statement"
  | forStatement => "for_statement"
  | forInit => "for_init"
  | forTest => "for_test"
  | forUpdate => "for_update"
  | breakStatement => "break_statement"
  | continueStatement => "continue_statement"
  | returnStatement => "return_statement"
  | functionDeclaration => "function_declaration"
  | expressionStatement => "expression_statement"

/-- Blanks and comments make no node and are never reported; `statement` and
`primary_expression` only choose; the character classes of identifiers are no tokens. -/
def kind : Rule → Peg.RuleKind
  | whitespace | comment => ⟨false, true⟩
  | identStart | identPart | primaryExpression | statement => ⟨false, false⟩
  | keyword | identifier | identifierName | nullLiteral | booleanLiteral | numericLiteral
  | hexIntegerLiteral | decimalLiteral | exponentPart | stringLiteral | escapeSequence
  | thisExpression | postfixOperator | unaryOperator | multiplicativeOperator
  | additiveOperator | relationalOperator | equalityOperator | assignmentOperator => ⟨true, true⟩
  | _ => ⟨true, false⟩

open Peg Peg.Expr

/-- An ASCII decimal digit. -/
def digit : Peg.Expr Rule := .range '0' '9'

/-- An ASCII letter. -/
def letter : Peg.Expr Rule := .alt (.range 'a' 'z') (.range 'A' 'Z')

/-- An ASCII hexadecimal digit. -/
def hexDigit : Peg.Expr Rule := oneOf [digit, .range 'a' 'f', .range 'A' 'F']

/-- A keyword, checked as a whole word without reading it. -/
def word (w : String) : Peg.Expr Rule := chain [.ahead (.rule keyword), lit w]

/-- Text that is not followed by a character of an identifier. -/
def whole (e : Peg.Expr Rule) : Peg.Expr Rule := chain [e, .notAhead (.rule identPart)]

/-- `item` once or more, separated by commas. -/
def commaList (item : Peg.Expr Rule) : Peg.Expr Rule := chain [item, star (chain [lit ",", item])]

/-- A quoted string with quote `q`: no bare quote, backslash or line feed inside. -/
def quoted (q : String) : Peg.Expr Rule :=
  chain [lit q, star (.alt (chain [.notAhead (lits [q, "\\", "\n"]), .any]) (.rule escapeSequence)),
    lit q]

/-- A left-associated chain of `operand`s joined by `op`. -/
def joined (operand op : Peg.Expr Rule) : Peg.Expr Rule := chain [operand, star (chain [op, operand])]

/-- The body of each rule. -/
def body : Rule → Peg.Expr Rule
  | eoi => .finish
  | whitespace => lits [" ", "\t", "\r", "\n", "\uFEFF", "\u00A0"]
  | comment =>
    .alt (chain [lit "/*", star (chain [.notAhead (lit "*/"), .any]), lit "*/"])
      (chain [lit "//", star (chain [.notAhead (lit "\n"), .any])])
  | script => chain [.start, star (.rule statement), .rule eoi]
  | identStart => oneOf [letter, lit "_", lit "$"]
  | identPart => oneOf [letter, digit, lit "_", lit "$"]
  | keyword =>
    whole (lits ["break", "continue", "delete", "else", "false", "for", "function", "if",
      "instanceof", "in", "new", "null", "return", "this", "true", "typeof", "var", "void",
      "while"])
  | identifier => chain [.notAhead (.rule keyword), .rule identStart, star (.rule identPart)]
  | identifierName => chain [.rule identStart, star (.rule identPart)]
  | nullLiteral => whole (lit "null")
  | booleanLiteral => whole (lits ["true", "false"])
  | numericLiteral =>
    chain [.alt (.rule hexIntegerLiteral) (.rule decimalLiteral),
      .notAhead (.alt (.rule identStart) digit)]
  | hexIntegerLiteral => chain [lits ["0x", "0X"], plus hexDigit]
  | decimalLiteral =>
    chain [.alt (chain [plus digit, .opt (chain [lit ".", star digit])]) (chain [lit ".", plus digit]),
      .opt (.rule exponentPart)]
  | exponentPart => chain [lits ["e", "E"], .opt (lits ["+", "-"]), plus digit]
  | stringLiteral => .alt (quoted "\"") (quoted "'")
  | escapeSequence => chain [lit "\\", .any]
  | thisExpression => whole (lit "this")
  | primaryExpression =>
    oneOf [.rule thisExpression, .rule functionExpression, .rule nullLiteral, .rule booleanLiteral,
      .rule numericLiteral, .rule stringLiteral, .rule identifier, .rule arrayLiteral,
      .rule objectLiteral, chain [lit "(", .rule expression, lit ")"]]
  | arrayLiteral =>
    chain [lit "[", .opt (commaList (.rule assignmentExpression)), .opt (lit ","), lit "]"]
  | objectLiteral =>
    chain [lit "\x7b", .opt (chain [commaList (.rule propertyAssignment), .opt (lit ",")]), lit "\x7d"]
  | propertyAssignment =>
    chain [oneOf [.rule identifierName, .rule stringLiteral, .rule numericLiteral], lit ":",
      .rule assignmentExpression]
  | functionExpression =>
    chain [word "function", .opt (.rule identifier), lit "(", .rule formalParameters, lit ")",
      .rule functionBody]
  | formalParameters => .opt (commaList (.rule identifier))
  | functionBody => chain [lit "\x7b", star (.rule statement), lit "\x7d"]
  | arguments => chain [lit "(", .opt (commaList (.rule assignmentExpression)), lit ")"]
  | dotMember => chain [lit ".", .rule identifierName]
  | computedMember => chain [lit "[", .rule expression, lit "]"]
  | newMember => chain [word "new", .rule memberExpression, .rule arguments]
  | newNoArgs => chain [word "new", .rule memberExpression]
  | memberExpression =>
    chain [.alt (.rule newMember) (.rule primaryExpression),
      star (.alt (.rule dotMember) (.rule computedMember))]
  | lhsExpression =>
    chain [.alt (.rule memberExpression) (.rule newNoArgs),
      star (oneOf [.rule arguments, .rule dotMember, .rule computedMember])]
  | postfixExpression => chain [.rule lhsExpression, .opt (.rule postfixOperator)]
  | postfixOperator => lits ["++", "--"]
  | unaryExpression => chain [star (.rule unaryOperator), .rule postfixExpression]
  | unaryOperator =>
    oneOf [lit "++", lit "--", lit "!", lit "-", lit "+", whole (lits ["typeof", "void", "delete"])]
  | multiplicativeExpression => joined (.rule unaryExpression) (.rule multiplicativeOperator)
  | multiplicativeOperator => chain [lits ["*", "/", "%"], .notAhead (lit "=")]
  | additiveExpression => joined (.rule multiplicativeExpression) (.rule additiveOperator)
  | additiveOperator =>
    .alt (chain [lit "+", .notAhead (lits ["+", "="])]) (chain [lit "-", .notAhead (lits ["-", "="])])
  | relationalExpression => joined (.rule additiveExpression) (.rule relationalOperator)
  | relationalOperator =>
    oneOf [lit "<=", lit ">=", lit "<", lit ">", whole (lit "instanceof"), whole (lit "in")]
  | equalityExpression => joined (.rule relationalExpression) (.rule equalityOperator)
  | equalityOperator => lits ["===", "!==", "==", "!="]
  | logicalAndExpression => joined (.rule equalityExpression) (lit "&&")
  | logicalOrExpression => joined (.rule logicalAndExpression) (lit "||")
  | conditionalExpression =>
    chain [.rule logicalOrExpression,
      .opt (chain [lit "?", .rule assignmentExpression, lit ":", .rule assignmentExpression])]
  | assignmentExpression =>
    chain [.rule conditionalExpression,
      .opt (chain [.rule assignmentOperator, .rule assignmentExpression])]
  | assignmentOperator =>
    oneOf [lit "+=", lit "-=", lit "*=", lit "/=", lit "%=", chain [lit "=", .notAhead (lit "=")]]
  | expression => commaList (.rule assignmentExpression)
  | statement =>
    oneOf [.rule blockStatement, .rule variableStatement, .rule emptyStatement, .rule ifStatement,
      .rule forStatement, .rule whileStatement, .rule breakStatement, .rule continueStatement,
      .rule returnStatement, .rule functionDeclaration, .rule expressionStatement]
  | blockStatement => chain [lit "\x7b", star (.rule statement), lit "\x7d"]
  | variableStatement => chain [word "var", .rule variableDeclarationList, .opt (lit ";")]
  | variableDeclarationList => commaList (.rule variableDeclaration)
  | variableDeclaration =>
    chain [.rule identifier, .opt (chain [lit "=", .rule assignmentExpression])]
  | emptyStatement => lit ";"
  | ifStatement =>
    chain [word "if", lit "(", .rule expression, lit ")", .rule statement,
      .opt (chain [word "else", .rule statement])]
  | whileStatement => chain [word "while", lit "(", .rule expression, lit ")", .rule statement]
  | forStatement =>
    chain [word "for", lit "(", .opt (.rule forInit), lit ";", .opt (.rule forTest), lit ";",
      .opt (.rule forUpdate), lit ")", .rule statement]
  | forInit => .alt (chain [word "var", .rule variableDeclarationList]) (.rule expression)
  | forTest => .rule expression
  | forUpdate => .rule expression
  | breakStatement => chain [word "break", .opt (lit ";")]
  | continueStatement => chain [word "continue", .opt (lit ";")]
  | returnStatement => chain [word "return", .opt (.rule expression), .opt (lit ";")]
  | functionDeclaration =>
    chain [word "function", .rule identifier, lit "(", .rule formalParameters, lit ")",
      .rule functionBody]
  | expressionStatement => chain [.rule expression, .opt (lit ";")]

end Rule

/-- The script grammar: blanks are runs of whitespace and comments. -/
def scriptGrammar : Peg.Grammar Rule where
  body := Rule.body
  kind := Rule.kind
  blank := .seq (.many (.rule .whitespace))
    (.many (.seq (.rule .comment) (.many (.rule .whitespace))))
  rank := Rule.ctorIdx

end EcmaLite
