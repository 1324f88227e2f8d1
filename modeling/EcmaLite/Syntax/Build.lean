import EcmaLite.Syntax.Grammar
import EcmaLite.Syntax.Numeral
import EcmaLite.Syntax.Escape

/-!
# From parse trees to syntax trees

The grammar's parse tree has a node for every visible rule; this module reads the syntax tree
off it. Chains of binary and logical operators and of member, call and `new` suffixes become
left-nested trees in which every link starts where the whole chain starts and ends where its
last operand or suffix ends. A rule node with a single operand and no operator (a lone
`assignment_expression`, `postfix_expression`, …) stands for that operand.

Spans of parse-tree nodes count characters; syntax trees count bytes of the UTF-8 text, so the
builder converts through `Source.byte`. The builder is partial in form only: it answers `none` on
trees the grammar cannot produce.
-/

namespace EcmaLite

/-- Script text as characters, with the byte offset at which each character starts (and the
total length at the end). -/
structure Source where
  chars : Array Char
  offsets : Array Nat

namespace Source

/-- The source of a text. -/
def ofString (s : String) : Source :=
  let cs := s.toList
  ⟨cs.toArray, (cs.foldl (fun (acc : Array Nat × Nat) c => (acc.1.push acc.2, acc.2 + c.utf8Size))
    (#[], 0)) |> fun (offs, total) => offs.push total⟩

/-- The byte offset of character position `i`. -/
def byte (src : Source) (i : Nat) : Nat := src.offsets[i]?.getD 0

/-- The byte span of the characters from `a` to `b`. -/
def span (src : Source) (a b : Nat) : Span := ⟨src.byte a, src.byte b⟩

/-- The text of the characters from `a` to `b`. -/
def slice (src : Source) (a b : Nat) : String := String.ofList (src.chars.extract a b).toList

/-- The text a node read. -/
def text (src : Source) (n : Peg.Node Rule) : String := src.slice n.start n.stop

/-- The name a node read, with its span. -/
def ident (src : Source) (n : Peg.Node Rule) : Ident := ⟨src.span n.start n.stop, src.text n⟩

end Source

namespace Build

open Peg

/-- The operator of an assignment token. -/
def assignOp? : String → Option AssignOp
  | "=" => some .assign
  | "+=" => some .add
  | "-=" => some .sub
  | "*=" => some .mul
  | "/=" => some .div
  | "%=" => some .mod
  | _ => none

/-- The operator of a binary operator token. -/
def binaryOp? : String → Option BinaryOp
  | "==" => some .looseEq
  | "!=" => some .looseNe
  | "===" => some .strictEq
  | "!==" => some .strictNe
  | "<" => some .lt
  | "<=" => some .le
  | ">" => some .gt
  | ">=" => some .ge
  | "+" => some .add
  | "-" => some .sub
  | "*" => some .mul
  | "/" => some .div
  | "%" => some .mod
  | "in" => some .inObject
  | "instanceof" => some .instanceOf
  | _ => none

/-- The operator of an update token. -/
def updateOp? : String → Option UpdateOp
  | "++" => some .inc
  | "--" => some .dec
  | _ => none

/-- The operator of a prefix token other than `++` and `--`. -/
def unaryOp? : String → Option UnaryOp
  | "!" => some .not
  | "-" => some .neg
  | "+" => some .plus
  | "typeof" => some .typeOf
  | "void" => some .void
  | "delete" => some .delete
  | _ => none

/-- The literal a literal node denotes. -/
def literal? (src : Source) (n : Node Rule) : Option Lit :=
  match n.rule with
  | .nullLiteral => some .null
  | .booleanLiteral => some (.bool (src.text n == "true"))
  | .stringLiteral => some (.str (Escape.decodeString (src.slice (n.start + 1) (n.stop - 1))))
  | .numericLiteral => some (.num (NumLit.ofText (src.text n)))
  | _ => none

/-- The property key written by a key node of an object literal. -/
def key? (src : Source) (n : Node Rule) : Option String :=
  match n.rule with
  | .identifierName => some (src.text n)
  | .stringLiteral => some (Escape.decodeString (src.slice (n.start + 1) (n.stop - 1)))
  | .numericLiteral => some (NumLit.ofText (src.text n)).keyText
  | _ => none

/-- A prefix operator applied to `arg`, the whole spanning from the operator to `stop`. -/
def applyPrefix? (src : Source) (stop : Nat) (op : Node Rule) (arg : Expr) : Option Expr :=
  let sp := src.span op.start stop
  match updateOp? (src.text op) with
  | some u => some (.update sp u true arg)
  | none => (unaryOp? (src.text op)).map fun u => .unary sp u arg

/-- A function spanning `span` from its name, parameters and body; it must have a body. -/
def func? (span : Span) : Option Ident × List Ident × Option (Span × List Stmt) → Option Func
  | (name, params, some (bodySpan, body)) => some (.mk span name params bodySpan body)
  | (_, _, none) => none

mutual

/-- The expression a node stands for. -/
def expr (src : Source) : Node Rule → Option Expr
  | ⟨.expression, a, b, cs⟩ => do
    let items ← exprs src cs
    match items with
    | [e] => some e
    | _ => some (.seq (src.span a b) items)
  | ⟨.assignmentExpression, a, b, cs⟩ =>
    match cs with
    | [l] => expr src l
    | [l, op, r] => do
      let o ← assignOp? (src.text op)
      let target ← expr src l
      let value ← expr src r
      some (.assign (src.span a b) o target value)
    | _ => none
  | ⟨.conditionalExpression, a, b, cs⟩ =>
    match cs with
    | [t] => expr src t
    | [t, y, n] => do
      let test ← expr src t
      let yes ← expr src y
      let no ← expr src n
      some (.cond (src.span a b) test yes no)
    | _ => none
  | ⟨.logicalOrExpression, a, _, cs⟩ =>
    match cs with
    | c :: rest => do logicalChain src a .or (← expr src c) rest
    | [] => none
  | ⟨.logicalAndExpression, a, _, cs⟩ =>
    match cs with
    | c :: rest => do logicalChain src a .and (← expr src c) rest
    | [] => none
  | ⟨.equalityExpression, a, _, cs⟩ => binary src a cs
  | ⟨.relationalExpression, a, _, cs⟩ => binary src a cs
  | ⟨.additiveExpression, a, _, cs⟩ => binary src a cs
  | ⟨.multiplicativeExpression, a, _, cs⟩ => binary src a cs
  | ⟨.unaryExpression, _, b, cs⟩ => prefixed src b cs
  | ⟨.postfixExpression, a, b, cs⟩ =>
    match cs with
    | [arg] => expr src arg
    | [arg, op] => do
      let u ← updateOp? (src.text op)
      some (.update (src.span a b) u false (← expr src arg))
    | _ => none
  | ⟨.lhsExpression, a, _, cs⟩ => suffixed src a cs
  | ⟨.memberExpression, a, _, cs⟩ => suffixed src a cs
  | ⟨.newMember, a, b, cs⟩ =>
    match cs with
    | [c, ⟨.arguments, _, _, args⟩] => do
      let callee ← expr src c
      some (.new (src.span a b) callee (← exprs src args))
    | _ => none
  | ⟨.newNoArgs, a, b, cs⟩ =>
    match cs with
    | [c] => do some (.new (src.span a b) (← expr src c) [])
    | _ => none
  | ⟨.thisExpression, a, b, _⟩ => some (.this (src.span a b))
  | ⟨.functionExpression, a, b, cs⟩ => do some (.func (← func? (src.span a b) (← funcParts src cs)))
  | n@⟨.identifier, _, _, _⟩ => some (.ident (src.ident n))
  | ⟨.arrayLiteral, a, b, cs⟩ => do some (.array (src.span a b) (← exprs src cs))
  | ⟨.objectLiteral, a, b, cs⟩ => do some (.object (src.span a b) (← props src cs))
  | n => (literal? src n).map (.lit (src.span n.start n.stop))

/-- The expressions a list of nodes stands for. -/
def exprs (src : Source) : List (Node Rule) → Option (List Expr)
  | [] => some []
  | n :: ns => do
    let e ← expr src n
    some (e :: (← exprs src ns))

/-- A chain `operand (op operand)*` of a binary rule starting at `start`. -/
def binary (src : Source) (start : Nat) : List (Node Rule) → Option Expr
  | c :: rest => do binaryChain src start (← expr src c) rest
  | [] => none

/-- The rest `(op operand)*` of a binary chain, nested onto `left`. -/
def binaryChain (src : Source) (start : Nat) (left : Expr) : List (Node Rule) → Option Expr
  | op :: r :: rest => do
    let o ← binaryOp? (src.text op)
    let right ← expr src r
    binaryChain src start (.binary (src.span start r.stop) o left right) rest
  | [] => some left
  | [_] => none

/-- The rest `(&& operand)*` or `(|| operand)*` of a logical chain, nested onto `left`. -/
def logicalChain (src : Source) (start : Nat) (op : LogicalOp) (left : Expr) :
    List (Node Rule) → Option Expr
  | r :: rest => do
    let right ← expr src r
    logicalChain src start op (.logical (src.span start r.stop) op left right) rest
  | [] => some left

/-- Prefix operators before their operand; the first operator is the outermost. -/
def prefixed (src : Source) (stop : Nat) : List (Node Rule) → Option Expr
  | [arg] => expr src arg
  | op :: rest => do applyPrefix? src stop op (← prefixed src stop rest)
  | [] => none

/-- A member or call chain starting at `start`: its head, then its suffixes. -/
def suffixed (src : Source) (start : Nat) : List (Node Rule) → Option Expr
  | c :: rest => do suffixChain src start (← expr src c) rest
  | [] => none

/-- Suffixes `(args)`, `.name` and `[key]` applied to `obj` in turn. -/
def suffixChain (src : Source) (start : Nat) (obj : Expr) : List (Node Rule) → Option Expr
  | ⟨.arguments, _, b, cs⟩ :: rest => do
    let args ← exprs src cs
    suffixChain src start (.call (src.span start b) obj args) rest
  | ⟨.dotMember, _, b, [n]⟩ :: rest =>
    suffixChain src start (.dot (src.span start b) obj (src.ident n)) rest
  | ⟨.computedMember, _, b, [k]⟩ :: rest => do
    let key ← expr src k
    suffixChain src start (.index (src.span start b) obj key) rest
  | [] => some obj
  | _ :: _ => none

/-- The entries of an object literal. -/
def props (src : Source) : List (Node Rule) → Option (List Property)
  | ⟨.propertyAssignment, a, b, [k, v]⟩ :: rest => do
    let key ← key? src k
    let value ← expr src v
    some (.mk (src.span a b) key value :: (← props src rest))
  | [] => some []
  | _ :: _ => none

/-- The name, parameters and body among the children of a function node. -/
def funcParts (src : Source) :
    List (Node Rule) → Option (Option Ident × List Ident × Option (Span × List Stmt))
  | [] => some (none, [], none)
  | n@⟨.identifier, _, _, _⟩ :: rest => do
    let (_, params, body) ← funcParts src rest
    some (some (src.ident n), params, body)
  | ⟨.formalParameters, _, _, ps⟩ :: rest => do
    let (name, _, body) ← funcParts src rest
    some (name, ps.map src.ident, body)
  | ⟨.functionBody, a, b, ss⟩ :: rest => do
    let (name, params, _) ← funcParts src rest
    some (name, params, some (src.span a b, ← stmts src ss))
  | _ :: _ => none

/-- The statement a node stands for. -/
def stmt (src : Source) : Node Rule → Option Stmt
  | ⟨.blockStatement, a, b, cs⟩ => do some (.block (src.span a b) (← stmts src cs))
  | ⟨.variableStatement, _, _, cs⟩ =>
    match cs with
    | [⟨.variableDeclarationList, a, b, ds⟩] => do some (.vars (src.span a b) (← declarators src ds))
    | _ => none
  | ⟨.emptyStatement, a, b, _⟩ => some (.empty (src.span a b))
  | ⟨.ifStatement, a, b, cs⟩ =>
    match cs with
    | [t, y] => do
      let test ← expr src t
      some (.ifElse (src.span a b) test (← stmt src y) none)
    | [t, y, n] => do
      let test ← expr src t
      let yes ← stmt src y
      some (.ifElse (src.span a b) test yes (some (← stmt src n)))
    | _ => none
  | ⟨.whileStatement, a, b, cs⟩ =>
    match cs with
    | [t, s] => do
      let test ← expr src t
      some (.whileLoop (src.span a b) test (← stmt src s))
    | _ => none
  | ⟨.forStatement, a, b, cs⟩ => do
    let (init, test, update, body) ← forParts src cs
    some (.forLoop (src.span a b) init test update (← body))
  | ⟨.breakStatement, a, b, _⟩ => some (.breakLoop (src.span a b))
  | ⟨.continueStatement, a, b, _⟩ => some (.continueLoop (src.span a b))
  | ⟨.returnStatement, a, b, cs⟩ =>
    match cs with
    | [] => some (.ret (src.span a b) none)
    | [e] => do some (.ret (src.span a b) (some (← expr src e)))
    | _ => none
  | ⟨.functionDeclaration, a, b, cs⟩ => do some (.funcDecl (← func? (src.span a b) (← funcParts src cs)))
  | ⟨.expressionStatement, a, b, cs⟩ =>
    match cs with
    | [e] => do some (.expr (src.span a b) (← expr src e))
    | _ => none
  | _ => none

/-- The statements a list of nodes stands for. -/
def stmts (src : Source) : List (Node Rule) → Option (List Stmt)
  | [] => some []
  | n :: ns => do
    let s ← stmt src n
    some (s :: (← stmts src ns))

/-- The declarators of a `var` list. -/
def declarators (src : Source) : List (Node Rule) → Option (List Declarator)
  | ⟨.variableDeclaration, a, b, cs⟩ :: rest => do
    let d ← match cs with
      | [n] => some (Declarator.mk (src.span a b) (src.ident n) none)
      | [n, e] => do some (Declarator.mk (src.span a b) (src.ident n) (some (← expr src e)))
      | _ => none
    some (d :: (← declarators src rest))
  | [] => some []
  | _ :: _ => none

/-- The clauses and body among the children of a `for` node. -/
def forParts (src : Source) :
    List (Node Rule) → Option (Option ForInit × Option Expr × Option Expr × Option Stmt)
  | [] => some (none, none, none, none)
  | ⟨.forInit, _, _, cs⟩ :: rest => do
    let (_, test, update, body) ← forParts src rest
    let init ← match cs with
      | [⟨.variableDeclarationList, a, b, ds⟩] => do some (ForInit.vars (src.span a b) (← declarators src ds))
      | [e] => do some (ForInit.expr (← expr src e))
      | _ => none
    some (some init, test, update, body)
  | ⟨.forTest, _, _, cs⟩ :: rest => do
    let (init, _, update, body) ← forParts src rest
    match cs with
    | [e] => do some (init, some (← expr src e), update, body)
    | _ => none
  | ⟨.forUpdate, _, _, cs⟩ :: rest => do
    let (init, test, _, body) ← forParts src rest
    match cs with
    | [e] => do some (init, test, some (← expr src e), body)
    | _ => none
  | s :: rest => do
    let (init, test, update, _) ← forParts src rest
    some (init, test, update, some (← stmt src s))

end

end Build

/-- The program read off the parse tree of a whole script over `src`. -/
def Program.ofNodes? (src : Source) : List (Peg.Node Rule) → Option Program
  | [⟨.script, _, _, cs⟩] => do
    let body ← Build.stmts src (cs.filter fun n => !(n.rule == .eoi))
    some ⟨⟨0, src.byte src.chars.size⟩, body⟩
  | _ => none

end EcmaLite
