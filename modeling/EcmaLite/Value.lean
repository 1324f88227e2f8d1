import EcmaLite.Code.Instr

/-!
# Values and objects

A value is a primitive or a reference to an object of the heap (`ObjId`). Objects carry an
ordered table of own properties, a prototype link and a class tag; arrays add a vector of
elements with holes, functions a name and what runs when they are called: a built-in routine,
or compiled code with the scope it closes over and the global object of the environment that
created it.

References are indices: a heap is an array of objects and a scope store an array of scopes, so
that sharing and cycles (an array that contains itself, `window.window`) are plain data.
-/

namespace EcmaLite

/-- The index of an object in the heap. -/
abbrev ObjId := Nat

/-- The index of a scope in the scope store. -/
abbrev ScopeId := Nat

/-- Values of the script language. -/
inductive Value where
  | undefined
  | null
  | bool (b : Bool)
  | str (s : String)
  | num (n : Number)
  | obj (id : ObjId)
  deriving Inhabited

/-- The routines built into every environment. -/
inductive Native where
  /-- `eval(source)`: runs source text in the scope of its caller. -/
  | eval
  /-- `p(...)`: prints the text of each argument on a line of its own. -/
  | print
  /-- `Object(value)`. -/
  | objectCtor
  /-- `Object.prototype.hasOwnProperty(key)`. -/
  | hasOwnProperty
  /-- `Object.prototype.toString()`. -/
  | toString
  /-- `Function.prototype.call(receiver, ...)`. -/
  | call
  deriving DecidableEq, Inhabited

/-- The class tag of an object, shown by `Object.prototype.toString`. -/
inductive ClassTag where
  | object
  | array
  | function
  | window
  deriving DecidableEq, Inhabited

/-- The name of a class tag. -/
def ClassTag.name : ClassTag → String
  | .object => "Object"
  | .array => "Array"
  | .function => "Function"
  | .window => "Window"

/-- What runs when a function is called. -/
inductive Callable where
  | native (n : Native)
  /-- Compiled code, the scope it closes over and the global object its free names fall
  back to. -/
  | script (code : Code) (scope : ScopeId) (global : ObjId)
  deriving Inhabited

/-- The variants of objects. -/
inductive ObjKind where
  | ordinary
  /-- Elements; `none` is a hole. -/
  | array (elems : Array (Option Value))
  | function (name : String) (body : Callable)
  deriving Inhabited

/-- An object: its variant, class tag, own properties in insertion order and prototype. -/
structure Obj where
  kind : ObjKind
  cls : ClassTag
  props : List (String × Value)
  proto : Option ObjId
  deriving Inhabited

/-- A scope: bindings of names to values and the enclosing scope. -/
structure Scope where
  vars : List (String × Value)
  outer : Option ScopeId
  deriving Inhabited

end EcmaLite
