import EcmaLite.Machine.Run

/-!
# A big-step evaluator of scripts

`Program.eval` runs a script directly on its syntax tree, with the operations of the object model
the machine uses: property reads and writes (`Run.getProp`, `Run.getElem`, `Run.setProp`), calls
(`callWith`, `construct`), `ToBoolean` (`Value.truthy`) and the coercions. It is the meaning
compiled scripts are held to.

* Before the first statement, the `var` names of the body are declared in the scope of the run,
  keeping the bindings already there, and then each function declaration is bound there.
* Subexpressions are evaluated from left to right, each exactly once.
* `&&` and `||` give one of their operands and evaluate the right one only when the left one does
  not decide; `?:` and `if` evaluate one branch.
* Loops test before every round, also after a `continue`; a `for` loop runs its update after the
  body and after a `continue`. `break` leaves the innermost loop.
* A script's value is what a `return` gives, else the value of the last expression statement run
  (`undefined` when none ran).

Function literals make closures, and function objects hold compiled code: the closure of a literal
holds the code the compiler makes of it on its own (`Func.code`), and a call runs it on the
machine through `callWith`.

The evaluator takes fuel: loops run at most that many rounds, and calls get that much fuel.
-/

namespace EcmaLite

/-- Where a script body runs: its scope, its receiver, and the global object free names fall back
to. -/
structure EvalEnv where
  scope : ScopeId
  this : Value
  global : ObjId

/-- How a statement ends: by running to its end, by `break`, by `continue`, or by `return`. -/
inductive Exit where
  | normal
  | breaks
  | continues
  | returns (v : Value)

namespace EvalEnv

variable (ρ : EvalEnv)

/-- The value of a name: its nearest binding in the scope chain, else the property of the global
object, `undefined` when that is missing too. -/
def read (x : String) : Run Value := do
  let w ← get
  match w.resolve ρ.scope x with
  | some v => return v
  | none => Run.lift (w.getProp ρ.global x)

/-- Assigns a name: its nearest binding, else a property of the global object. -/
def write (x : String) (v : Value) : Run Unit :=
  modify fun w =>
    match w.lookupScope ρ.scope x with
    | some s => w.bind s x v
    | none => w.put ρ.global x v

/-- `typeof x`: the type of the binding or global property, `undefined` when neither exists. -/
def typeOfName (x : String) : Run String := do
  let w ← get
  match w.resolve ρ.scope x with
  | some v => return w.typeName v
  | none =>
    if ← Run.lift (w.hasProp ρ.global x) then
      return w.typeName (← Run.lift (w.getProp ρ.global x))
    else return "undefined"

/-- `++x` or `x--` and their kind: the new number for a prefix update, the old one for a postfix
update. -/
def updateName (x : String) (op : UpdateOp) (isPrefix : Bool) : Run Value := do
  let old := (← ρ.read x).toNumber
  let new := Run.bump op old
  ρ.write x (.num new)
  return .num (if isPrefix then new else old)

/-- Records the scope and receiver of the run as those of the caller, where `eval` runs. -/
def exposeCaller : Run Unit :=
  modify fun w => { w with ctx := { w.ctx with callerScope := ρ.scope, callerThis := ρ.this } }

/-- A closure of `code` in the scope of the run. A named function expression gets a scope of its
own in which its name is bound to it. -/
def closure (code : Code) : Run Value := do
  let scope ← if code.bindsOwnName then Run.make (World.newScope (some ρ.scope)) else pure ρ.scope
  let f ← Run.make (World.allocFunction code.name (.script code scope ρ.global))
  if code.bindsOwnName then modify (World.bind scope code.name (.obj f))
  return .obj f

end EvalEnv

/-- The code of a function literal compiled on its own: its `var` names, its function
declarations, its statements, then `return undefined`. -/
def Func.code (f : Func) (isExpr : Bool) : Except Fault Code :=
  match f with
  | .mk _ _ _ _ stmts =>
    let body : Emit Unit := do
      Emit.declareVars (varNames stmts)
      Emit.hoist stmts
      Emit.block stmts
      discard (Emit.emit .pushUndefined)
      discard (Emit.emit .ret)
    match body.run (Emitter.start false) with
    | .ok (_, inner) => .ok (Emit.finishFunction f isExpr inner)
    | .error e => .error e

/-- The value of a literal. -/
def Lit.value : Lit → Value
  | .null => .null
  | .bool b => .bool b
  | .str s => .str s
  | .num n => .num (Emit.numberOf n)

/-- The value of `a op b`. -/
def BinaryOp.apply : BinaryOp → Value → Value → Run Value
  | .add, a, b => Run.add a b
  | .sub, a, b => pure (Run.number (a.toFloat - b.toFloat))
  | .mul, a, b => pure (Run.number (a.toFloat * b.toFloat))
  | .div, a, b => pure (Run.number (a.toFloat / b.toFloat))
  | .mod, a, b => pure (Run.number (Double.rem a.toFloat b.toFloat))
  | .strictEq, a, b => pure (.bool (a.strictEq b))
  | .strictNe, a, b => pure (.bool !(a.strictEq b))
  | .looseEq, a, b => pure (.bool (a.looseEq b))
  | .looseNe, a, b => pure (.bool !(a.looseEq b))
  | .lt, a, b => pure (.bool (a.order b == some .lt))
  | .le, a, b => pure (.bool (match a.order b with
      | some .gt | none => false
      | _ => true))
  | .gt, a, b => pure (.bool (a.order b == some .gt))
  | .ge, a, b => pure (.bool (match a.order b with
      | some .lt | none => false
      | _ => true))
  | .instanceOf, a, b => do return .bool (← Run.instanceOf a b)
  | .inObject, a, b => do return .bool (← Run.hasIn a b)

/-- The operator a compound assignment applies; none for `=`. -/
def AssignOp.binary? : AssignOp → Option BinaryOp
  | .assign => none
  | .add => some .add
  | .sub => some .sub
  | .mul => some .mul
  | .div => some .div
  | .mod => some .mod

/-- The value an assignment stores: the value of the right side, or for a compound assignment the
operator applied to the old value, read first, and that value. -/
def AssignOp.stored (op : AssignOp) (old value : Run Value) : Run Value :=
  match op.binary? with
  | some bop => do
    let a ← old
    let b ← value
    bop.apply a b
  | none => value

/-- A loop with at most `k` rounds left: each round runs `test` and stops when it fails, then the
body; unless the body broke out of the loop or returned, `next` runs and the next round starts.
`cv` is the value of the last expression statement run. -/
def loop (test : Run Bool) (body : Value → Run (Exit × Value)) (next : Run Unit) :
    Nat → Value → Run (Exit × Value)
  | 0, _ => throw .outOfFuel
  | k + 1, cv => do
    if !(← test) then return (.normal, cv)
    let (x, cv) ← body cv
    match x with
    | .breaks => return (.normal, cv)
    | .returns v => return (.returns v, cv)
    | .normal | .continues => do
      next
      loop test body next k cv

mutual

/-- The value of an expression, run in `ρ` with fuel `n`. -/
def Expr.eval (n : Nat) (ρ : EvalEnv) : Expr → Run Value
  | .lit _ l => pure l.value
  | .ident id => ρ.read id.name
  | .this _ => pure ρ.this
  | .array _ es => do
    let vs ← Expr.evalList n ρ es
    return .obj (← Run.make (World.allocArray vs))
  | .object _ ps => do
    let o ← Run.make World.allocObject
    Property.evalInto n ρ o ps
    return .obj o
  | .func f => do ρ.closure (← Run.lift (f.code true))
  | .unary _ .typeOf (.ident id) => do return .str (← ρ.typeOfName id.name)
  | .unary _ .typeOf a => do
    let v ← Expr.eval n ρ a
    return .str ((← get).typeName v)
  | .unary _ .delete (.dot _ obj prop) => do
    let b ← Expr.eval n ρ obj
    return .bool (← Run.deleteProp b prop.name)
  | .unary _ .delete (.index _ obj key) => do
    let b ← Expr.eval n ρ obj
    let k ← Expr.eval n ρ key
    return .bool (← Run.deleteProp b ((← get).text k))
  | .unary _ .delete (.ident _) => pure (.bool false)
  | .unary _ .delete a => do
    discard (Expr.eval n ρ a)
    return .bool true
  | .unary _ .neg a => do return Run.number (-(← Expr.eval n ρ a).toFloat)
  | .unary _ .plus a => do return .num (← Expr.eval n ρ a).toNumber
  | .unary _ .not a => do return .bool !(← Expr.eval n ρ a).truthy
  | .unary _ .void a => do
    discard (Expr.eval n ρ a)
    return .undefined
  | .update _ op isPrefix (.ident id) => ρ.updateName id.name op isPrefix
  | .update _ op isPrefix (.dot _ obj prop) => do
    let b ← Expr.eval n ρ obj
    Run.updateProp b prop.name op isPrefix
  | .update _ op isPrefix (.index _ obj key) => do
    let b ← Expr.eval n ρ obj
    let k ← Expr.eval n ρ key
    Run.updateProp b ((← get).text k) op isPrefix
  | .update _ _ isPrefix _ => throw (.badUpdateTarget isPrefix)
  | .binary _ op l r => do
    let a ← Expr.eval n ρ l
    let b ← Expr.eval n ρ r
    op.apply a b
  | .logical _ .and l r => do
    let a ← Expr.eval n ρ l
    if a.truthy then Expr.eval n ρ r else pure a
  | .logical _ .or l r => do
    let a ← Expr.eval n ρ l
    if a.truthy then pure a else Expr.eval n ρ r
  | .assign _ op (.ident id) value => do
    let v ← op.stored (ρ.read id.name) (Expr.eval n ρ value)
    ρ.write id.name v
    return v
  | .assign _ op (.dot _ obj prop) value => do
    let b ← Expr.eval n ρ obj
    let v ← op.stored (Run.getProp b prop.name) (Expr.eval n ρ value)
    Run.setProp b prop.name v
    return v
  | .assign _ op (.index _ obj key) value => do
    let b ← Expr.eval n ρ obj
    let k ← Expr.eval n ρ key
    let v ← op.stored (Run.getElem b k) (Expr.eval n ρ value)
    Run.setProp b ((← get).text k) v
    return v
  | .assign .. => throw .badAssignTarget
  | .cond _ test yes no => do
    let t ← Expr.eval n ρ test
    if t.truthy then Expr.eval n ρ yes else Expr.eval n ρ no
  | .call _ (.dot _ obj prop) args => do
    let b ← Expr.eval n ρ obj
    let f ← Run.getProp b prop.name
    let vs ← Expr.evalList n ρ args
    ρ.exposeCaller
    callWith n f b vs
  | .call _ (.index _ obj key) args => do
    let b ← Expr.eval n ρ obj
    let k ← Expr.eval n ρ key
    let f ← Run.getElem b k
    let vs ← Expr.evalList n ρ args
    ρ.exposeCaller
    callWith n f b vs
  | .call _ callee args => do
    let f ← Expr.eval n ρ callee
    let vs ← Expr.evalList n ρ args
    ρ.exposeCaller
    callWith n f (.obj (← get).ctx.global) vs
  | .new _ callee args => do
    let f ← Expr.eval n ρ callee
    let vs ← Expr.evalList n ρ args
    ρ.exposeCaller
    construct n f vs
  | .dot _ obj prop => do
    let b ← Expr.eval n ρ obj
    Run.getProp b prop.name
  | .index _ obj key => do
    let b ← Expr.eval n ρ obj
    let k ← Expr.eval n ρ key
    Run.getElem b k
  | .seq _ items => Expr.evalLast n ρ .undefined items

/-- The values of expressions, from left to right. -/
def Expr.evalList (n : Nat) (ρ : EvalEnv) : List Expr → Run (List Value)
  | [] => pure []
  | e :: rest => do
    let v ← Expr.eval n ρ e
    let vs ← Expr.evalList n ρ rest
    return v :: vs

/-- Evaluates expressions from left to right and gives the value of the last one, `v` when there
is none. -/
def Expr.evalLast (n : Nat) (ρ : EvalEnv) (v : Value) : List Expr → Run Value
  | [] => pure v
  | e :: rest => do Expr.evalLast n ρ (← Expr.eval n ρ e) rest

/-- Stores the entries of an object literal into object `o`, in order. -/
def Property.evalInto (n : Nat) (ρ : EvalEnv) (o : ObjId) : List Property → Run Unit
  | [] => pure ()
  | .mk _ key value :: rest => do
    let v ← Expr.eval n ρ value
    modify (World.put o key v)
    Property.evalInto n ρ o rest

/-- Runs the initialisers of declarators into their names. -/
def Declarator.evalList (n : Nat) (ρ : EvalEnv) : List Declarator → Run Unit
  | [] => pure ()
  | .mk _ id init :: rest => do
    match init with
    | some e => ρ.write id.name (← Expr.eval n ρ e)
    | none => pure ()
    Declarator.evalList n ρ rest

/-- Runs a statement with `cv` the value of the last expression statement run so far; gives how
it ended and that value after it. -/
def Stmt.eval (n : Nat) (ρ : EvalEnv) : Stmt → Value → Run (Exit × Value)
  | .empty _, cv => pure (.normal, cv)
  | .expr _ e, _ => do return (.normal, ← Expr.eval n ρ e)
  | .block _ body, cv => Stmt.evalList n ρ body cv
  | .vars _ ds, cv => do
    Declarator.evalList n ρ ds
    return (.normal, cv)
  | .funcDecl _, cv => pure (.normal, cv)
  | .ifElse _ test yes (some no), cv => do
    if (← Expr.eval n ρ test).truthy then Stmt.eval n ρ yes cv else Stmt.eval n ρ no cv
  | .ifElse _ test yes none, cv => do
    if (← Expr.eval n ρ test).truthy then Stmt.eval n ρ yes cv else return (.normal, cv)
  | .whileLoop _ test body, cv =>
    loop (do return (← Expr.eval n ρ test).truthy) (Stmt.eval n ρ body) (pure ()) n cv
  | .forLoop _ init test update body, cv => do
    ForInit.eval n ρ init
    loop (Expr.evalTest n ρ test) (Stmt.eval n ρ body) (Expr.evalUpdate n ρ update) n cv
  | .breakLoop _, cv => pure (.breaks, cv)
  | .continueLoop _, cv => pure (.continues, cv)
  | .ret _ (some e), cv => do return (.returns (← Expr.eval n ρ e), cv)
  | .ret _ none, cv => pure (.returns .undefined, cv)

/-- Runs statements in order until one does not end normally. -/
def Stmt.evalList (n : Nat) (ρ : EvalEnv) : List Stmt → Value → Run (Exit × Value)
  | [], cv => pure (.normal, cv)
  | s :: rest, cv => do
    let (x, cv) ← Stmt.eval n ρ s cv
    match x with
    | .normal => Stmt.evalList n ρ rest cv
    | _ => return (x, cv)

/-- The first clause of a `for` loop; the value of an expression is dropped. -/
def ForInit.eval (n : Nat) (ρ : EvalEnv) : Option ForInit → Run Unit
  | some (.vars _ ds) => Declarator.evalList n ρ ds
  | some (.expr e) => discard (Expr.eval n ρ e)
  | none => pure ()

/-- The test of a `for` loop; a missing test holds. -/
def Expr.evalTest (n : Nat) (ρ : EvalEnv) : Option Expr → Run Bool
  | some e => do return (← Expr.eval n ρ e).truthy
  | none => pure true

/-- The update of a `for` loop, its value dropped; nothing when there is none. -/
def Expr.evalUpdate (n : Nat) (ρ : EvalEnv) : Option Expr → Run Unit
  | some e => discard (Expr.eval n ρ e)
  | none => pure ()

end

/-- A script run in `ρ` with fuel `n`: its `var` names declared in the scope of the run, keeping
the bindings there, its function declarations bound there in source order, then its statements.
Its value is what a `return` gives, else the value of the last expression statement run. -/
def Program.eval (n : Nat) (p : Program) (ρ : EvalEnv) : Run Value := do
  (varNames p.body).forM fun x => modify (World.declare ρ.scope x)
  (hoistedFuncs p.body).forM fun f => do
    let v ← ρ.closure (← Run.lift (f.code false))
    modify (World.bind ρ.scope f.nameText v)
  let (x, cv) ← Stmt.evalList n ρ p.body .undefined
  match x with
  | .returns v => return v
  | _ => return cv

end EcmaLite
