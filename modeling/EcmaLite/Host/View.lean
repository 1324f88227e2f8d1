import EcmaLite.Coerce

/-!
# Views of values

What a host sees of a value after a run: primitives as they are, objects as a summary (their
kind, class and text) under a number that tells objects apart within one view. Objects are
numbered in the order they are first met: the value itself, then the values of its own
properties in key order, then its prototype. The same object met twice gets the same number,
so identity and cycles stay visible.

Only the value itself lists its own properties and its prototype; objects inside it are shown
as summaries.
-/

namespace EcmaLite

/-- What kind of object a summary shows, with what the kind adds. -/
inductive Shape where
  | ordinary
  | array (length : Nat)
  | native (name : String)
  | script (name : String) (params : List String)

/-- The summary of an object. -/
structure ObjectView where
  /-- The object's number within the view. -/
  id : Nat
  shape : Shape
  cls : ClassTag
  /-- `ToString` of the object. -/
  text : String

/-- A value inside a view. -/
inductive View where
  | undefined
  | null
  | bool (b : Bool)
  | str (s : String)
  | num (n : Number)
  | obj (o : ObjectView)

/-- The view of a value: a nested view, or for an object also its own properties in key order
and its prototype. -/
inductive Shown where
  | plain (v : View)
  | object (o : ObjectView) (props : List (String × View)) (proto : Option View)

namespace World

/-- The number of object `id` given the objects numbered so far, and the list with it. -/
def number (seen : List ObjId) (id : ObjId) : Nat × List ObjId :=
  match seen.idxOf? id with
  | some n => (n, seen)
  | none => (seen.length, seen ++ [id])

/-- The shape of an object. -/
def shape (o : Obj) : Shape :=
  match o.kind with
  | .ordinary => .ordinary
  | .array es => .array es.size
  | .function name (.native _) => .native name
  | .function name (.script code _ _) => .script name code.params

/-- The summary of object `id`, numbering it if it is new. -/
def summary (w : World) (seen : List ObjId) (id : ObjId) : ObjectView × List ObjId :=
  let (n, seen) := number seen id
  let o := w.obj id
  (⟨n, shape o, o.cls, w.text (.obj id)⟩, seen)

/-- The nested view of a value. -/
def viewIn (w : World) (seen : List ObjId) : Value → View × List ObjId
  | .undefined => (.undefined, seen)
  | .null => (.null, seen)
  | .bool b => (.bool b, seen)
  | .str s => (.str s, seen)
  | .num n => (.num n, seen)
  | .obj id =>
    let (o, seen) := w.summary seen id
    (.obj o, seen)

/-- The views of the own properties of an object, numbering objects as they come. -/
def propViews (w : World) (o : Obj) : List String → List ObjId → List (String × View) × List ObjId
  | [], seen => ([], seen)
  | k :: ks, seen =>
    let (v, seen) := w.viewIn seen ((o.getOwn k).getD .undefined)
    let (rest, seen) := w.propViews o ks seen
    ((k, v) :: rest, seen)

/-- The view of a value as a host is shown it. -/
def display (w : World) : Value → Shown
  | .obj id =>
    let (top, seen) := w.summary [] id
    let o := w.obj id
    let (props, seen) := w.propViews o o.ownKeys seen
    .object top props (o.proto.map fun p => (w.viewIn seen (.obj p)).1)
  | v => .plain (w.viewIn [] v).1

end World

end EcmaLite
