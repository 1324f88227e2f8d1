import EcmaLite.Heap.Store
import EcmaLite.Number.Read

/-!
# Conversions and comparisons

The conversions of the language: to a boolean (zero, NaN aside, the empty string, `undefined`
and `null` are false; NaN is true), to a number (objects have none and give NaN), to text, and
the `typeof` names; then `===`, `==` and the order behind `<`.

Text of an array is its elements' text joined by commas, holes, `undefined` and `null` written
as nothing; arrays nested more than `maxTextDepth` deep are written as nothing, which also ends
arrays that contain themselves.
-/

namespace EcmaLite

/-- How deep nested arrays are written out. -/
def maxTextDepth : Nat := 32

namespace Value

/-- `ToBoolean`. -/
def truthy : Value → Bool
  | .undefined | .null => false
  | .bool b => b
  | .num n => !n.isZero
  | .str s => !s.isEmpty
  | .obj _ => true

/-- `ToNumber`. -/
def toNumber : Value → Number
  | .undefined => .nan
  | .null => .int 0
  | .bool b => .int (if b then 1 else 0)
  | .str s => Number.ofText s
  | .num n => n
  | .obj _ => .nan

/-- The double of `ToNumber`. -/
def toFloat (v : Value) : Float := v.toNumber.toFloat

/-- Whether a value is `undefined` or `null`. -/
def isNothing : Value → Bool
  | .undefined | .null => true
  | _ => false

end Value

namespace World

/-- Text of a value, with arrays written out to `depth` more levels. -/
def textAt (w : World) : Nat → Value → String
  | _, .undefined => "undefined"
  | _, .null => "null"
  | _, .bool b => if b then "true" else "false"
  | _, .str s => s
  | _, .num n => n.toText
  | depth, .obj id =>
    let o := w.obj id
    match o.kind, depth with
    | .array _, 0 => ""
    | .array es, d + 1 =>
      ",".intercalate (es.toList.map fun
        | some v => if v.isNothing then "" else w.textAt d v
        | none => "")
    | .function name (.native _), _ => "function " ++ name ++ "() { [native code] }"
    | .function name (.script code _ _), _ =>
      "function " ++ name ++ "(" ++ ", ".intercalate code.params ++ ") { ... }"
    | .ordinary, _ => "[object " ++ o.cls.name ++ "]"

/-- `ToString`. -/
def text (w : World) (v : Value) : String := w.textAt maxTextDepth v

/-- Whether a value is a function. -/
def isCallable (w : World) : Value → Bool
  | .obj id => (w.obj id).isCallable
  | _ => false

/-- Whether a value is an array. -/
def isArray (w : World) : Value → Bool
  | .obj id => (w.obj id).isArray
  | _ => false

/-- The `typeof` name of a value: `null` is an object, functions are functions. -/
def typeName (w : World) : Value → String
  | .undefined => "undefined"
  | .null => "object"
  | .bool _ => "boolean"
  | .str _ => "string"
  | .num _ => "number"
  | v@(.obj _) => if w.isCallable v then "function" else "object"

end World

namespace Number

/-- Numeric equality: NaN equals nothing, two `int`s compare exactly, all else as doubles. -/
def same : Number → Number → Bool
  | .nan, _ | _, .nan => false
  | .int x, .int y => x == y
  | a, b => a.toFloat == b.toFloat

end Number

namespace Value

/-- `===`: same type and value; numbers by `Number.same`, objects by identity. -/
def strictEq : Value → Value → Bool
  | .undefined, .undefined | .null, .null => true
  | .bool x, .bool y => x == y
  | .str x, .str y => x == y
  | .num x, .num y => Number.same x y
  | .obj x, .obj y => x == y
  | _, _ => false

/-- A boolean as the number it compares as under `==`; other values as they are. -/
def boolAsNumber : Value → Value
  | .bool b => .num (.int (if b then 1 else 0))
  | v => v

/-- `==` on values other than booleans. -/
def looseEqCore (a b : Value) : Bool :=
  match a, b with
  | .undefined, .null | .null, .undefined => true
  | .num x, .str _ => Number.same x b.toNumber
  | .str _, .num y => Number.same a.toNumber y
  | _, _ => strictEq a b

/-- `==`: `undefined` and `null` equal each other; a number and a string compare as numbers; a
boolean compares as its number; everything else as `===`. -/
def looseEq (a b : Value) : Bool := looseEqCore a.boolAsNumber b.boolAsNumber

/-- The order of two values for `<` and friends: strings by code points, all else as doubles;
`none` when a NaN takes part. -/
def order (a b : Value) : Option Ordering :=
  match a, b with
  | .str x, .str y => some (compare x y)
  | _, _ =>
    let x := a.toFloat
    let y := b.toFloat
    if x < y then some .lt else if x == y then some .eq else if y < x then some .gt else none

end Value

end EcmaLite
