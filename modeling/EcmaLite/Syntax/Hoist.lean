import EcmaLite.Syntax.Ast

/-!
# Declarations that are hoisted

Before the first statement of a script or function body runs, its `var` names are declared and
its function declarations are bound. Both are found in *statement positions* of the body: the
body's own statements, the statements of blocks, both branches of `if`, and the bodies of
`while` and `for` loops (a `for` loop's `var` clause included), never inside a nested function.

`varNames` lists the declared names in order of first occurrence, each once; `hoistedFuncs`
lists the function declarations in source order.
-/

namespace EcmaLite

/-- Appends `n` unless it is already listed. -/
def pushUnique (names : List String) (n : String) : List String :=
  if names.contains n then names else names ++ [n]

/-- The names of declarators, appended to `acc` without repeating a name. -/
def Declarator.collectNames (acc : List String) : List Declarator → List String
  | [] => acc
  | .mk _ id _ :: rest => Declarator.collectNames (pushUnique acc id.name) rest

mutual

/-- The `var` names declared in statement positions of `s`, appended to `acc` without
repeating a name. -/
def Stmt.collectVars (acc : List String) : Stmt → List String
  | .vars _ ds => Declarator.collectNames acc ds
  | .block _ body => Stmt.collectVarsList acc body
  | .ifElse _ _ yes no =>
    let acc := yes.collectVars acc
    match no with
    | some n => n.collectVars acc
    | none => acc
  | .whileLoop _ _ body => body.collectVars acc
  | .forLoop _ init _ _ body =>
    let acc := match init with
      | some (.vars _ ds) => Declarator.collectNames acc ds
      | _ => acc
    body.collectVars acc
  | _ => acc

/-- `Stmt.collectVars` over a list of statements in order. -/
def Stmt.collectVarsList (acc : List String) : List Stmt → List String
  | [] => acc
  | s :: rest => Stmt.collectVarsList (s.collectVars acc) rest

end

/-- The `var` names of a body, in order of first occurrence. -/
def varNames (body : List Stmt) : List String := Stmt.collectVarsList [] body

mutual

/-- The function declarations in statement positions of `s`, in source order. -/
def Stmt.hoisted : Stmt → List Func
  | .funcDecl f => [f]
  | .block _ body => Stmt.hoistedList body
  | .ifElse _ _ yes no =>
    yes.hoisted ++ match no with
      | some n => n.hoisted
      | none => []
  | .whileLoop _ _ body => body.hoisted
  | .forLoop _ _ _ _ body => body.hoisted
  | _ => []

/-- `Stmt.hoisted` over a list of statements. -/
def Stmt.hoistedList : List Stmt → List Func
  | [] => []
  | s :: rest => s.hoisted ++ Stmt.hoistedList rest

end

/-- The function declarations of a body that are bound before it runs, in source order. -/
def hoistedFuncs (body : List Stmt) : List Func := Stmt.hoistedList body

end EcmaLite
