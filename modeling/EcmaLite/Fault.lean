import EcmaLite.Syntax.Parse

/-!
# Faults

Everything that can stop a script, one constructor per cause. `Fault.kind` is the class of
error a host sees and `Fault.message` its text.
-/

namespace EcmaLite

/-- The classes of error a host sees. -/
inductive FaultKind where
  | syntaxError
  | typeError
  | referenceError
  | rangeError
  | stackOverflow
  | internalError
  deriving DecidableEq, Inhabited, Repr

/-- The name a host sees for a class of error. -/
def FaultKind.name : FaultKind → String
  | .syntaxError => "SyntaxError"
  | .typeError => "TypeError"
  | .referenceError => "ReferenceError"
  | .rangeError => "RangeError"
  | .stackOverflow => "StackOverflow"
  | .internalError => "InternalError"

/-- The longest prefix of a source, in characters, that a syntax error quotes. -/
def quoteLimit : Nat := 80

/-- The quoted source of a syntax error: its first `quoteLimit` characters, and `...` when that
is not all of it. -/
def quoteSource (source : String) : String :=
  let shown := String.ofList (source.toList.take quoteLimit)
  shown ++ (if shown.utf8ByteSize < source.utf8ByteSize then "..." else "")

/-- Why a script stopped. -/
inductive Fault where
  /-- The source could not be read. -/
  | unreadable (e : ParseError) (source : String)
  /-- `break` outside a loop of the same function body. -/
  | strayBreak
  /-- `continue` outside a loop of the same function body. -/
  | strayContinue
  /-- The left side of an assignment is no variable or member. -/
  | badAssignTarget
  /-- The operand of `++` or `--` is no variable or member. -/
  | badUpdateTarget (isPrefix : Bool)
  /-- A call of a value that is no function; `shown` is its text. -/
  | notCallable (shown : String)
  /-- `new` with a value that is no function; `shown` is its text. -/
  | notConstructor (shown : String)
  /-- Reading property `key` of `undefined` (or of `null`). -/
  | readOfNothing (key : String) (isNull : Bool)
  /-- Writing property `key` of `undefined` (or of `null`). -/
  | writeToNothing (key : String) (isNull : Bool)
  /-- Deleting a property of `undefined` (or of `null`). -/
  | deleteFromNothing (isNull : Bool)
  /-- `key in v` with `v` no object; `shown` is its text. -/
  | inOnPrimitive (key : String) (shown : String)
  /-- `v instanceof F` with `F` no function. -/
  | instanceofNotCallable
  /-- `v instanceof F` where `F.prototype` is no object. -/
  | instanceofBadPrototype
  /-- A call started while `limit` calls were already running. -/
  | callDepth (limit : Nat)
  /-- A walk up prototypes needed more than `limit` links. -/
  | chainTooLong (limit : Nat)
  /-- Running the script slot while it is empty. -/
  | noScript
  /-- A script handle used with an environment that did not issue it. -/
  | foreignHandle
  /-- The run used up its fuel. -/
  | outOfFuel
  deriving Inhabited

namespace Fault

/-- The class of a fault. -/
def kind : Fault → FaultKind
  | .unreadable .. | .strayBreak | .strayContinue => .syntaxError
  | .badAssignTarget | .badUpdateTarget _ => .referenceError
  | .notCallable _ | .notConstructor _ | .readOfNothing .. | .writeToNothing ..
  | .deleteFromNothing _ | .inOnPrimitive .. | .instanceofNotCallable
  | .instanceofBadPrototype => .typeError
  | .callDepth _ => .stackOverflow
  | .chainTooLong _ | .noScript | .foreignHandle | .outOfFuel => .internalError

/-- `undefined` or `null`. -/
def nothingText (isNull : Bool) : String := if isNull then "null" else "undefined"

/-- The text of a fault. -/
def message : Fault → String
  | .unreadable e source => e.describe ++ " in \"" ++ quoteSource source ++ "\""
  | .strayBreak => "Illegal break statement"
  | .strayContinue => "Illegal continue statement"
  | .badAssignTarget => "Invalid left-hand side in assignment"
  | .badUpdateTarget p =>
    "Invalid left-hand side expression in " ++ (if p then "prefix" else "postfix") ++ " operation"
  | .notCallable v => v ++ " is not a function"
  | .notConstructor v => v ++ " is not a constructor"
  | .readOfNothing k n => "Cannot read property '" ++ k ++ "' of " ++ nothingText n
  | .writeToNothing k n => "Cannot set property '" ++ k ++ "' of " ++ nothingText n
  | .deleteFromNothing n => "Cannot convert " ++ nothingText n ++ " to object"
  | .inOnPrimitive k v => "Cannot use 'in' operator to search for '" ++ k ++ "' in " ++ v
  | .instanceofNotCallable => "Right-hand side of 'instanceof' is not callable"
  | .instanceofBadPrototype => "Function has non-object prototype in instanceof check"
  | .callDepth n => "Maximum call depth of " ++ toString n ++ " exceeded"
  | .chainTooLong n => "Prototype chain longer than " ++ toString n ++ " links"
  | .noScript => "No script has been evaluated in this environment"
  | .foreignHandle => "Script handle of environment <id> used with environment <id>"
  | .outOfFuel => "Evaluation ran out of fuel"

end Fault

end EcmaLite
