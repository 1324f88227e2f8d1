import EcmaLite.Code.Instr
import EcmaLite.Syntax.Hoist
import EcmaLite.Fault

/-!
# Compiling syntax trees to stack-machine code

`Program.compile` turns a script into `Code`; every function literal inside is compiled along
with it, so all faults a compiler can find come out before anything runs, also from code that
is never reached:

* an assignment whose left side is no variable or member (`Fault.badAssignTarget`);
* `++` or `--` on something that is no variable or member (`Fault.badUpdateTarget`);
* `break` or `continue` that is not inside a loop of the same function body.

A body compiles in three parts: a `declareVar` for each `var` name, then for each function
declaration its closure bound to its name (the declaration's own code compiled at that point),
then the statements. The first fault in that order is the one reported.

Expression statements of a script store their value as the script's completion value; those of
a function body drop it. Every expression leaves exactly one value on the stack, and every
statement leaves the stack as it found it.
-/

namespace EcmaLite

/-- Jumps still to be aimed, for the innermost loops being compiled. -/
structure LoopJumps where
  breaks : List Nat
  continues : List Nat

/-- Code under construction. -/
structure Emitter where
  instrs : Array Instr
  consts : Array Const
  names : Array String
  funcs : Array Code
  loops : List LoopJumps
  isScript : Bool

/-- The empty emitter for a script or a function body. -/
def Emitter.start (isScript : Bool) : Emitter := ⟨#[], #[], #[], #[], [], isScript⟩

/-- Compilation: building code, or stopping at a fault. -/
abbrev Emit := StateT Emitter (Except Fault)

/-- A jump aimed at `target`; any other instruction as it is. -/
def Instr.retarget (target : Nat) : Instr → Instr
  | .jump _ => .jump target
  | .jumpIfFalse _ => .jumpIfFalse target
  | .jumpIfTrue _ => .jumpIfTrue target
  | i => i

namespace Emit

/-- Appends an instruction and gives its index. -/
def emit (i : Instr) : Emit Nat :=
  modifyGet fun e => (e.instrs.size, { e with instrs := e.instrs.push i })

/-- The index of the next instruction. -/
def here : Emit Nat := do return (← get).instrs.size

/-- The index of a name in the name table, adding it when new. -/
def name (n : String) : Emit Nat :=
  modifyGet fun e =>
    match e.names.idxOf? n with
    | some i => (i, e)
    | none => (e.names.size, { e with names := e.names.push n })

/-- Adds a constant and gives its index. -/
def const (c : Const) : Emit Nat :=
  modifyGet fun e => (e.consts.size, { e with consts := e.consts.push c })

/-- Aims the jump at index `pos` at instruction `target`. -/
def aim (pos target : Nat) : Emit Unit :=
  modify fun e => { e with instrs := e.instrs.modify pos (Instr.retarget target) }

/-- Aims the jump at index `pos` at the next instruction. -/
def aimHere (pos : Nat) : Emit Unit := do aim pos (← here)

/-- The instruction of a binary operator. -/
def binaryInstr : BinaryOp → Instr
  | .looseEq => .looseEq
  | .looseNe => .looseNe
  | .strictEq => .strictEq
  | .strictNe => .strictNe
  | .lt => .lt
  | .le => .le
  | .gt => .gt
  | .ge => .ge
  | .add => .add
  | .sub => .sub
  | .mul => .mul
  | .div => .div
  | .mod => .mod
  | .inObject => .hasIn
  | .instanceOf => .instanceOf

/-- The arithmetic of a compound assignment; none for `=`. -/
def compoundInstr : AssignOp → Option Instr
  | .assign => none
  | .add => some .add
  | .sub => some .sub
  | .mul => some .mul
  | .div => some .div
  | .mod => some .mod

/-- The constant a number literal stands for, in normal form. -/
def numberOf : NumLit → Number
  | .int i => Number.ofFloat (Double.ofInt i)
  | .float f => Number.ofFloat f

/-- Pushes the value of a literal. -/
def literal : Lit → Emit Unit
  | .null => discard (emit .pushNull)
  | .bool true => discard (emit .pushTrue)
  | .bool false => discard (emit .pushFalse)
  | .str s => do discard (emit (.pushConst (← const (.str s))))
  | .num n => do discard (emit (.pushConst (← const (.num (numberOf n)))))

/-- Whether an expression may stand on the left of an assignment. -/
def isAssignTarget : Expr → Bool
  | .ident _ | .dot .. | .index .. => true
  | _ => false

/-- Opens a loop: `break` and `continue` now refer to it. -/
def enterLoop : Emit Unit := modify fun e => { e with loops := ⟨[], []⟩ :: e.loops }

/-- Closes the innermost loop: its `continue`s go to `continueTarget`, its `break`s to the next
instruction. -/
def leaveLoop (continueTarget : Nat) : Emit Unit := do
  match (← get).loops with
  | l :: rest =>
    modify fun e => { e with loops := rest }
    for j in l.continues do aim j continueTarget
    for j in l.breaks do aimHere j
  | [] => pure ()

/-- A `break` (or, with `isBreak` false, a `continue`): a jump to be aimed when its loop
closes. -/
def loopExit (isBreak : Bool) : Emit Unit := do
  let j ← emit (.jump 0)
  match (← get).loops with
  | l :: rest =>
    let l := if isBreak then { l with breaks := j :: l.breaks }
      else { l with continues := j :: l.continues }
    modify fun e => { e with loops := l :: rest }
  | [] => throw (if isBreak then .strayBreak else .strayContinue)

/-- Finishes the code of a function body compiled into `e`. -/
def finishFunction (f : Func) (isExpr : Bool) (e : Emitter) : Code :=
  match f with
  | .mk _ name params _ _ =>
    .mk (f.nameText) (params.map (·.name)) e.instrs e.consts e.names e.funcs
      (isExpr && name.isSome)

/-- Adds compiled function code to the function table and gives its index. -/
def addFunction (c : Code) : Emit Nat :=
  modifyGet fun e => (e.funcs.size, { e with funcs := e.funcs.push c })

/-- `declareVar` for each name. -/
def declareVars : List String → Emit Unit
  | [] => pure ()
  | n :: rest => do
    discard (emit (.declareVar (← name n)))
    declareVars rest

/-- `a && b` and `a || b`: the right side runs only when the left one does not decide, and the
value is the operand that decided. -/
def logicalCode (op : LogicalOp) (l r : Emit Unit) : Emit Unit := do
  l
  discard (emit .dup)
  let j ← emit (if op = .and then .jumpIfFalse 0 else .jumpIfTrue 0)
  discard (emit .pop)
  r
  aimHere j

/-- `test ? yes : no`, and the same shape for an `if` with an `else`. -/
def condCode (test yes no : Emit Unit) : Emit Unit := do
  test
  let j ← emit (.jumpIfFalse 0)
  yes
  let k ← emit (.jump 0)
  aimHere j
  no
  aimHere k

/-- An expression statement: a script keeps its value as the completion value, a function body
drops it. -/
def exprStmt (e : Emit Unit) : Emit Unit := do
  e
  discard (emit (if (← get).isScript then .setCompletion else .pop))

/-- `if` without an `else`. -/
def ifCode (test yes : Emit Unit) : Emit Unit := do
  test
  let j ← emit (.jumpIfFalse 0)
  yes
  aimHere j

/-- A `while` loop: its `continue`s go back to the test. -/
def whileCode (test body : Emit Unit) : Emit Unit := do
  let start ← here
  test
  let exit ← emit (.jumpIfFalse 0)
  enterLoop
  body
  discard (emit (.jump start))
  aimHere exit
  leaveLoop start

/-- The test of a `for` loop and the jump out of the loop when it fails; nothing when there is
no test. -/
def loopTest : Option (Emit Unit) → Emit (Option Nat)
  | some t => do
    t
    some <$> emit (.jumpIfFalse 0)
  | none => pure none

/-- The update of a `for` loop, its value dropped; nothing when there is no update. -/
def loopUpdate : Option (Emit Unit) → Emit Unit
  | some u => do
    u
    discard (emit .pop)
  | none => pure ()

/-- Aims the jump out of a loop, if its test has one, at the next instruction. -/
def aimExit : Option Nat → Emit Unit
  | some j => aimHere j
  | none => pure ()

/-- A `for` loop: its `continue`s go to the update. -/
def forCode (init : Emit Unit) (test update : Option (Emit Unit)) (body : Emit Unit) :
    Emit Unit := do
  init
  let start ← here
  let exit ← loopTest test
  enterLoop
  body
  let next ← here
  loopUpdate update
  discard (emit (.jump start))
  aimExit exit
  leaveLoop next

/-- `return`, with `undefined` when there is no value. -/
def retCode (arg : Option (Emit Unit)) : Emit Unit := do
  match arg with
  | some e => e
  | none => discard (emit .pushUndefined)
  discard (emit .ret)

mutual

/-- Code that pushes the value of an expression. -/
def expr : Expr → Emit Unit
  | .lit _ l => literal l
  | .ident id => do discard (emit (.getVar (← name id.name)))
  | .this _ => discard (emit .this)
  | .array _ es => do
    exprs es
    discard (emit (.newArray es.length))
  | .object _ ps => do
    discard (emit .newObject)
    props ps
  | .func f => do
    let k ← func f true
    discard (emit (.makeClosure k))
  | .unary _ op arg =>
    match op, arg with
    | .typeOf, .ident id => do discard (emit (.typeOfVar (← name id.name)))
    | .typeOf, a => do
      expr a
      discard (emit .typeOf)
    | .delete, .dot _ obj prop => do
      expr obj
      discard (emit (.deleteProp (← name prop.name)))
    | .delete, .index _ obj key => do
      expr obj
      expr key
      discard (emit .deleteElem)
    | .delete, .ident _ => discard (emit .pushFalse)
    | .delete, a => do
      expr a
      discard (emit .pop)
      discard (emit .pushTrue)
    | .neg, a => do
      expr a
      discard (emit .negate)
    | .plus, a => do
      expr a
      discard (emit .toNumber)
    | .not, a => do
      expr a
      discard (emit .not)
    | .void, a => do
      expr a
      discard (emit .void)
  | .update _ op isPrefix arg =>
    match arg with
    | .ident id => do discard (emit (.updateVar (← name id.name) op isPrefix))
    | .dot _ obj prop => do
      expr obj
      discard (emit (.updateProp (← name prop.name) op isPrefix))
    | .index _ obj key => do
      expr obj
      expr key
      discard (emit (.updateElem op isPrefix))
    | _ => throw (.badUpdateTarget isPrefix)
  | .binary _ op l r => do
    expr l
    expr r
    discard (emit (binaryInstr op))
  | .logical _ op l r => logicalCode op (expr l) (expr r)
  | .assign _ op target value =>
    if !isAssignTarget target then throw .badAssignTarget
    else
      match target with
      | .ident id => do
        let n ← name id.name
        match compoundInstr op with
        | some i => do
          discard (emit (.getVar n))
          expr value
          discard (emit i)
        | none => expr value
        discard (emit (.setVar n))
      | .dot _ obj prop => do
        let n ← name prop.name
        expr obj
        match compoundInstr op with
        | some i => do
          discard (emit .dup)
          discard (emit (.getProp n))
          expr value
          discard (emit i)
        | none => expr value
        discard (emit (.setProp n))
      | .index _ obj key => do
        expr obj
        expr key
        match compoundInstr op with
        | some i => do
          discard (emit .dup2)
          discard (emit .getElem)
          expr value
          discard (emit i)
        | none => expr value
        discard (emit .setElem)
      | _ => throw .badAssignTarget
  | .cond _ test yes no => condCode (expr test) (expr yes) (expr no)
  | .call _ callee args =>
    match callee with
    | .dot _ obj prop => do
      expr obj
      discard (emit .dup)
      discard (emit (.getProp (← name prop.name)))
      exprs args
      discard (emit (.callMethod args.length))
    | .index _ obj key => do
      expr obj
      discard (emit .dup)
      expr key
      discard (emit .getElem)
      exprs args
      discard (emit (.callMethod args.length))
    | c => do
      expr c
      exprs args
      discard (emit (.call args.length))
  | .new _ callee args => do
    expr callee
    exprs args
    discard (emit (.construct args.length))
  | .dot _ obj prop => do
    expr obj
    discard (emit (.getProp (← name prop.name)))
  | .index _ obj key => do
    expr obj
    expr key
    discard (emit .getElem)
  | .seq _ items => sequence true items

/-- Code that pushes the values of expressions in order. -/
def exprs : List Expr → Emit Unit
  | [] => pure ()
  | e :: rest => do
    expr e
    exprs rest

/-- Code of a comma expression: each value but the last dropped; `undefined` for none. -/
def sequence (first : Bool) : List Expr → Emit Unit
  | [] => if first then discard (emit .pushUndefined) else pure ()
  | e :: rest => do
    if !first then discard (emit .pop)
    expr e
    sequence false rest

/-- Code that stores the entries of an object literal into the object on the stack. -/
def props : List Property → Emit Unit
  | [] => pure ()
  | .mk _ key value :: rest => do
    expr value
    discard (emit (.initProp (← name key)))
    props rest

/-- Compiles a function literal into the function table; `isExpr` marks a function expression,
which sees its own name. -/
def func (f : Func) (isExpr : Bool) : Emit Nat :=
  match f with
  | .mk _ _ _ _ stmts => do
    let run : Emit Unit := do
      declareVars (varNames stmts)
      hoist stmts
      block stmts
      discard (emit .pushUndefined)
      discard (emit .ret)
    match run.run (Emitter.start false) with
    | .ok (_, inner) => addFunction (finishFunction f isExpr inner)
    | .error e => throw e

/-- Closures of the function declarations in statement positions, bound to their names. -/
def hoist : List Stmt → Emit Unit
  | [] => pure ()
  | s :: rest => do
    hoistIn s
    hoist rest

/-- `hoist` inside one statement. -/
def hoistIn : Stmt → Emit Unit
  | .funcDecl f => do
    let k ← func f false
    discard (emit (.makeClosure k))
    discard (emit (.bindFunction (← name f.nameText)))
  | .block _ stmts => hoist stmts
  | .ifElse _ _ yes no => do
    hoistIn yes
    match no with
    | some n => hoistIn n
    | none => pure ()
  | .whileLoop _ _ b => hoistIn b
  | .forLoop _ _ _ _ b => hoistIn b
  | _ => pure ()

/-- Code of statements in order. -/
def block : List Stmt → Emit Unit
  | [] => pure ()
  | s :: rest => do
    stmt s
    block rest

/-- Code that evaluates the initialisers of declarators into their variables. -/
def declarators : List Declarator → Emit Unit
  | [] => pure ()
  | .mk _ id init :: rest => do
    match init with
    | some e => do
      expr e
      discard (emit (.setVar (← name id.name)))
      discard (emit .pop)
    | none => pure ()
    declarators rest

/-- Code of an expression that may be missing. -/
def optExpr : Option Expr → Option (Emit Unit)
  | some e => some (expr e)
  | none => none

/-- Code of the first part of a `for` loop; an expression's value is dropped. -/
def forInit : Option ForInit → Emit Unit
  | some (.vars _ ds) => declarators ds
  | some (.expr e) => do
    expr e
    discard (emit .pop)
  | none => pure ()

/-- Code of one statement. -/
def stmt : Stmt → Emit Unit
  | .empty _ => pure ()
  | .expr _ e => exprStmt (expr e)
  | .block _ stmts => block stmts
  | .vars _ ds => declarators ds
  | .funcDecl _ => pure ()
  | .ifElse _ test yes (some no) => condCode (expr test) (stmt yes) (stmt no)
  | .ifElse _ test yes none => ifCode (expr test) (stmt yes)
  | .whileLoop _ test b => whileCode (expr test) (stmt b)
  | .forLoop _ init test update b =>
    forCode (forInit init) (optExpr test) (optExpr update) (stmt b)
  | .breakLoop _ => loopExit true
  | .continueLoop _ => loopExit false
  | .ret _ arg => retCode (optExpr arg)

end

end Emit

/-- The code of a script: its body, then `halt`. -/
def Program.compile (p : Program) : Except Fault Code := do
  let (_, e) ← (do
      Emit.declareVars (varNames p.body)
      Emit.hoist p.body
      Emit.block p.body
      discard (Emit.emit .halt)).run (Emitter.start true)
  return .mk "" [] e.instrs e.consts e.names e.funcs false

end EcmaLite
