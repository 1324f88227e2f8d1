import EcmaLite.Number.Basic
import EcmaLite.Syntax.Ast

/-!
# Stack-machine code

Scripts and function bodies compile to `Code`: a list of instructions over an operand stack,
with three tables the instructions point into: constants, names (each name once) and the code
of nested function literals. Jumps name the index of their target instruction.

Instructions that update a variable or property carry the update (`++`/`--`) and whether the
expression is a prefix one (its value is the new number) or a postfix one (the old number).
-/

namespace EcmaLite

/-- A constant of the constant table: the value of a string or number literal. -/
inductive Const where
  | str (s : String)
  | num (n : Number)
  deriving Inhabited

/-- Instructions of the stack machine. `name` operands index the name table, `const` the
constant table, `func` the function table, `target` the code. -/
inductive Instr where
  | pushConst (const : Nat)
  | pushUndefined
  | pushNull
  | pushTrue
  | pushFalse
  | add
  | sub
  | mul
  | div
  | mod
  | negate
  | toNumber
  | strictEq
  | strictNe
  | looseEq
  | looseNe
  | lt
  | le
  | gt
  | ge
  | instanceOf
  | hasIn
  | not
  | typeOf
  | typeOfVar (name : Nat)
  | void
  | getVar (name : Nat)
  | setVar (name : Nat)
  | declareVar (name : Nat)
  | bindFunction (name : Nat)
  | jump (target : Nat)
  | jumpIfFalse (target : Nat)
  | jumpIfTrue (target : Nat)
  | pop
  | dup
  | dup2
  | getProp (name : Nat)
  | setProp (name : Nat)
  | getElem
  | setElem
  | deleteProp (name : Nat)
  | deleteElem
  | newObject
  | initProp (name : Nat)
  | newArray (count : Nat)
  | makeClosure (func : Nat)
  | call (argc : Nat)
  | callMethod (argc : Nat)
  | construct (argc : Nat)
  | this
  | setCompletion
  | ret
  | halt
  | updateVar (name : Nat) (op : UpdateOp) (isPrefix : Bool)
  | updateProp (name : Nat) (op : UpdateOp) (isPrefix : Bool)
  | updateElem (op : UpdateOp) (isPrefix : Bool)
  deriving Inhabited

/-- Compiled code of a script or of a function literal. -/
inductive Code where
  | mk (name : String) (params : List String) (instrs : Array Instr) (consts : Array Const)
      (names : Array String) (funcs : Array Code) (bindsOwnName : Bool)
  deriving Inhabited

namespace Code

/-- The function's name, empty for scripts and anonymous functions. -/
def name : Code → String
  | .mk n .. => n

/-- The formal parameter names. -/
def params : Code → List String
  | .mk _ ps .. => ps

/-- The instructions. -/
def instrs : Code → Array Instr
  | .mk _ _ is .. => is

/-- The constant table. -/
def consts : Code → Array Const
  | .mk _ _ _ cs .. => cs

/-- The name table. -/
def names : Code → Array String
  | .mk _ _ _ _ ns .. => ns

/-- The code of the function literals inside. -/
def funcs : Code → Array Code
  | .mk _ _ _ _ _ fs _ => fs

/-- Whether the function is a named function expression, which sees its own name. -/
def bindsOwnName : Code → Bool
  | .mk _ _ _ _ _ _ b => b

/-- The name at index `i` of the name table, empty when there is none. -/
def nameAt (c : Code) (i : Nat) : String := c.names[i]?.getD ""

end Code

end EcmaLite
