import EcmaLite.Coerce

/-!
# Built-in objects

How objects are made, and the objects every run starts with.

Three prototypes are shared by all environments of a run: the object prototype (with
`hasOwnProperty` and `toString`), the function prototype (with `call`) and the array prototype
(with nothing). Object literals, arrays and functions inherit from them.

Each environment has its own global object (class `Window`) with, in this order, `eval`, `p`,
`Object`, `undefined`, `NaN`, `Infinity` and `window` (itself). `Object.prototype` is the
environment's own copy of the object prototype's methods, inheriting from the shared one, so
that what a script adds to it stays in its environment.
-/

namespace EcmaLite

namespace World

/-- A fresh ordinary object of class `Object` with prototype `proto`. -/
def allocPlain (proto : Option ObjId) (w : World) : ObjId × World :=
  w.alloc (Obj.plain .object proto)

/-- A fresh object inheriting from the shared object prototype. -/
def allocObject (w : World) : ObjId × World := w.allocPlain (some w.protos.object)

/-- A fresh array of the given elements, inheriting from the shared array prototype. -/
def allocArray (elems : List Value) (w : World) : ObjId × World :=
  w.alloc ⟨.array (elems.map some).toArray, .array, [], some w.protos.array⟩

/-- A fresh function inheriting from the shared function prototype, with a fresh object as its
`prototype` property. -/
def allocFunction (name : String) (body : Callable) (w : World) : ObjId × World :=
  let (p, w) := w.allocObject
  w.alloc ⟨.function name body, .function, [("prototype", .obj p)], some w.protos.function⟩

/-- Adds property `key` to object `id`. -/
def put (id : ObjId) (key : String) (v : Value) (w : World) : World :=
  w.update id (·.putOwn key v)

/-- A built-in function, stored as property `name` of `target`. -/
def installNative (target : ObjId) (name : String) (n : Native) (w : World) : World :=
  let (f, w) := w.allocFunction name (.native n)
  w.put target name (.obj f)

/-- A world with the shared prototypes and nothing else. -/
def start (limits : Limits) : World :=
  let w : World := ⟨#[], #[], #[], ⟨0, 1, 2⟩, limits, default⟩
  let (op, w) := w.alloc (Obj.plain .object none)
  let (fp, w) := w.alloc (Obj.plain .function (some op))
  let (ap, w) := w.alloc (Obj.plain .array (some op))
  let w := { w with protos := ⟨op, fp, ap⟩ }
  let w := w.installNative op "hasOwnProperty" .hasOwnProperty
  let w := w.installNative op "toString" .toString
  w.installNative fp "call" .call

/-- A new environment's global object. -/
def allocGlobal (w : World) : ObjId × World :=
  let (g, w) := w.alloc (Obj.plain .window (some w.protos.object))
  let w := w.installNative g "eval" .eval
  let w := w.installNative g "p" .print
  let (ctor, w) := w.allocFunction "Object" (.native .objectCtor)
  let (copy, w) := w.alloc ⟨.ordinary, .object, (w.obj w.protos.object).props, some w.protos.object⟩
  let w := w.put ctor "prototype" (.obj copy)
  let w := w.put g "Object" (.obj ctor)
  let w := w.put g "undefined" .undefined
  let w := w.put g "NaN" (.num .nan)
  let w := w.put g "Infinity" (.num .posInf)
  let w := w.put g "window" (.obj g)
  (g, w)

end World

end EcmaLite
