/-!
# Syntax trees of scripts

A script is a list of statements; statements and expressions carry the `Span` of source bytes
they were read from. Number literals keep the form they were written in: a whole decimal or
hexadecimal literal that fits a signed 64-bit word is an `int`, every other one a `float`.
-/

namespace EcmaLite

/-- A range of byte offsets into the source text, `start` included and `stop` excluded. -/
structure Span where
  start : Nat
  stop : Nat
  deriving Inhabited, BEq, DecidableEq, Repr

/-- A name with the span where it is written. -/
structure Ident where
  span : Span
  name : String
  deriving Inhabited, BEq, Repr

/-- A number literal: a whole number that fits a signed 64-bit word, or a double. -/
inductive NumLit where
  | int (i : Int)
  | float (f : Float)
  deriving Inhabited

/-- The value a literal denotes. -/
inductive Lit where
  | null
  | bool (b : Bool)
  | str (s : String)
  | num (n : NumLit)
  deriving Inhabited

/-- Prefix operators other than `++` and `--`. -/
inductive UnaryOp where
  | neg | plus | not | typeOf | void | delete
  deriving DecidableEq, Inhabited, Repr

/-- `++` or `--`. -/
inductive UpdateOp where
  | inc | dec
  deriving DecidableEq, Inhabited, Repr

/-- Binary operators that evaluate both operands. -/
inductive BinaryOp where
  | looseEq | looseNe | strictEq | strictNe | lt | le | gt | ge
  | add | sub | mul | div | mod | inObject | instanceOf
  deriving DecidableEq, Inhabited, Repr

/-- `&&` or `||`. -/
inductive LogicalOp where
  | and | or
  deriving DecidableEq, Inhabited, Repr

/-- `=` or a compound assignment. -/
inductive AssignOp where
  | assign | add | sub | mul | div | mod
  deriving DecidableEq, Inhabited, Repr

mutual

/-- Expressions. -/
inductive Expr where
  | ident (id : Ident)
  | lit (span : Span) (l : Lit)
  | this (span : Span)
  | array (span : Span) (elems : List Expr)
  | object (span : Span) (props : List Property)
  | func (f : Func)
  | unary (span : Span) (op : UnaryOp) (arg : Expr)
  | update (span : Span) (op : UpdateOp) (isPrefix : Bool) (arg : Expr)
  | binary (span : Span) (op : BinaryOp) (lhs rhs : Expr)
  | logical (span : Span) (op : LogicalOp) (lhs rhs : Expr)
  | assign (span : Span) (op : AssignOp) (target value : Expr)
  | cond (span : Span) (test yes no : Expr)
  | call (span : Span) (callee : Expr) (args : List Expr)
  | new (span : Span) (callee : Expr) (args : List Expr)
  /-- `obj.name` -/
  | dot (span : Span) (obj : Expr) (prop : Ident)
  /-- `obj[prop]` -/
  | index (span : Span) (obj : Expr) (prop : Expr)
  | seq (span : Span) (items : List Expr)

/-- A `key: value` entry of an object literal; the key is already text. -/
inductive Property where
  | mk (span : Span) (key : String) (value : Expr)

/-- A function literal or declaration: its name, parameters and body. -/
inductive Func where
  | mk (span : Span) (name : Option Ident) (params : List Ident) (bodySpan : Span)
      (body : List Stmt)

/-- One `name = init` of a `var` statement. -/
inductive Declarator where
  | mk (span : Span) (id : Ident) (init : Option Expr)

/-- The first clause of a `for` loop. -/
inductive ForInit where
  | vars (span : Span) (decls : List Declarator)
  | expr (e : Expr)

/-- Statements. -/
inductive Stmt where
  | expr (span : Span) (e : Expr)
  | block (span : Span) (body : List Stmt)
  | empty (span : Span)
  | vars (span : Span) (decls : List Declarator)
  | funcDecl (f : Func)
  | ifElse (span : Span) (test : Expr) (yes : Stmt) (no : Option Stmt)
  | whileLoop (span : Span) (test : Expr) (body : Stmt)
  | forLoop (span : Span) (init : Option ForInit) (test update : Option Expr) (body : Stmt)
  | breakLoop (span : Span)
  | continueLoop (span : Span)
  | ret (span : Span) (arg : Option Expr)

end

instance : Inhabited Expr := ⟨.this default⟩
instance : Inhabited Stmt := ⟨.empty default⟩

/-- A whole script: its statements, spanning the whole source. -/
structure Program where
  span : Span
  body : List Stmt
  deriving Inhabited

/-- How the operator is written. -/
def UnaryOp.symbol : UnaryOp → String
  | .neg => "-" | .plus => "+" | .not => "!" | .typeOf => "typeof" | .void => "void"
  | .delete => "delete"

/-- How the operator is written. -/
def UpdateOp.symbol : UpdateOp → String
  | .inc => "++" | .dec => "--"

/-- How the operator is written. -/
def BinaryOp.symbol : BinaryOp → String
  | .looseEq => "==" | .looseNe => "!=" | .strictEq => "===" | .strictNe => "!=="
  | .lt => "<" | .le => "<=" | .gt => ">" | .ge => ">="
  | .add => "+" | .sub => "-" | .mul => "*" | .div => "/" | .mod => "%"
  | .inObject => "in" | .instanceOf => "instanceof"

/-- How the operator is written. -/
def LogicalOp.symbol : LogicalOp → String
  | .and => "&&" | .or => "||"

/-- How the operator is written. -/
def AssignOp.symbol : AssignOp → String
  | .assign => "=" | .add => "+=" | .sub => "-=" | .mul => "*=" | .div => "/=" | .mod => "%="

namespace Func

/-- The name of a function, empty when it has none. -/
def nameText : Func → String
  | .mk _ (some id) _ _ _ => id.name
  | .mk _ none _ _ _ => ""

/-- The parameter names of a function. -/
def paramNames : Func → List String
  | .mk _ _ params _ _ => params.map (·.name)

end Func

end EcmaLite
