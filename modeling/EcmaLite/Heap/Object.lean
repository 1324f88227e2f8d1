import EcmaLite.Value
import EcmaLite.Number.Read

/-!
# Own properties

The own-property operations of an object, without prototypes.

Ordinary and function objects keep their properties in a table in insertion order: writing an
existing key keeps its place, deleting a key closes the gap.

An array keeps its elements apart. Its `length` is the number of element slots and is not
stored. A key that is a *canonical index* (decimal digits, no leading zero) below the length
names an element slot, which may be a hole; other keys go to the table. Writing `length` with a
non-negative `int` at most `maxPadding` beyond the current length resizes the vector (new slots
are holes) and is ignored otherwise; writing an index at most `maxPadding` past the end grows the
vector with holes up to it, and a further index is stored in the table.
-/

namespace EcmaLite

/-- How far past its end an array grows by one write. -/
def maxPadding : Nat := 65536

/-- The key naming an array's length. -/
def lengthKey : String := "length"

/-- The index a key names, when it is canonical: decimal digits without a leading zero (except
`0` itself), below `2^64`. -/
def arrayIndex? (key : String) : Option Nat :=
  let cs := key.toList
  if cs.isEmpty ∨ !cs.all Char.isDigit then none
  else if cs.length > 1 ∧ cs.head? = some '0' then none
  else
    let n := Number.digitsValue cs
    if n < Nat.pow 2 64 then some n else none

namespace Props

/-- The value stored under `key`. -/
def get? (t : List (String × Value)) (key : String) : Option Value :=
  (t.find? (·.1 == key)).map (·.2)

/-- Whether `key` is stored. -/
def contains (t : List (String × Value)) (key : String) : Bool := t.any (·.1 == key)

/-- Stores `v` under `key`: in place when the key is there, else at the end. -/
def set (t : List (String × Value)) (key : String) (v : Value) : List (String × Value) :=
  if contains t key then t.map fun p => if p.1 == key then (key, v) else p
  else t ++ [(key, v)]

/-- Removes `key`. -/
def erase (t : List (String × Value)) (key : String) : List (String × Value) :=
  t.filter (·.1 != key)

end Props

namespace Elements

/-- The array resized to `n` slots: cut, or grown with holes. -/
def resize (es : Array (Option Value)) (n : Nat) : Array (Option Value) :=
  if n < es.size then es.take n else es ++ Array.replicate (n - es.size) none

end Elements

namespace Obj

/-- The value of own property `key`, if there is one. -/
def getOwn (o : Obj) (key : String) : Option Value :=
  match o.kind with
  | .array es =>
    if key = lengthKey then some (.num (.int es.size))
    else match arrayIndex? key with
      | some i => if i < es.size then es[i]?.join else Props.get? o.props key
      | none => Props.get? o.props key
  | _ => Props.get? o.props key

/-- Whether `key` is an own property. -/
def hasOwn (o : Obj) (key : String) : Bool :=
  match o.kind with
  | .array es =>
    if key = lengthKey then true
    else match arrayIndex? key with
      | some i => if i < es.size then (es[i]?.join).isSome else Props.contains o.props key
      | none => Props.contains o.props key
  | _ => Props.contains o.props key

/-- Writes own property `key`. -/
def putOwn (o : Obj) (key : String) (v : Value) : Obj :=
  match o with
  | ⟨.array es, cls, props, proto⟩ =>
    if key = lengthKey then
      match v with
      | .num (.int n) =>
        if 0 ≤ n ∧ n.toNat ≤ es.size + maxPadding then
          ⟨.array (Elements.resize es n.toNat), cls, props, proto⟩
        else ⟨.array es, cls, props, proto⟩
      | _ => ⟨.array es, cls, props, proto⟩
    else match arrayIndex? key with
      | some i =>
        if i < es.size then ⟨.array (es.set! i (some v)), cls, props, proto⟩
        else if i - es.size ≤ maxPadding then
          ⟨.array ((Elements.resize es i).push (some v)), cls, props, proto⟩
        else ⟨.array es, cls, Props.set props key v, proto⟩
      | none => ⟨.array es, cls, Props.set props key v, proto⟩
  | ⟨kind, cls, props, proto⟩ => ⟨kind, cls, Props.set props key v, proto⟩

/-- Removes own property `key`; an array's slot becomes a hole, its length stays. -/
def deleteOwn (o : Obj) (key : String) : Obj :=
  match o with
  | ⟨.array es, cls, props, proto⟩ =>
    if key = lengthKey then ⟨.array es, cls, props, proto⟩
    else match arrayIndex? key with
      | some i =>
        if i < es.size then ⟨.array (es.set! i none), cls, props, proto⟩
        else ⟨.array es, cls, Props.erase props key, proto⟩
      | none => ⟨.array es, cls, Props.erase props key, proto⟩
  | ⟨kind, cls, props, proto⟩ => ⟨kind, cls, Props.erase props key, proto⟩

/-- The indices of an array's elements that are no holes, ascending. -/
def presentIndices (es : Array (Option Value)) : List Nat :=
  (List.range es.size).filter fun i => (es[i]?.join).isSome

/-- The own keys: an array's present indices ascending, then the table's keys in insertion
order; an array's `length` is not listed. -/
def ownKeys (o : Obj) : List String :=
  match o.kind with
  | .array es => (presentIndices es).map toString ++ o.props.map (·.1)
  | _ => o.props.map (·.1)

/-- Whether the object is a function. -/
def isCallable (o : Obj) : Bool :=
  match o.kind with
  | .function .. => true
  | _ => false

/-- Whether the object is an array. -/
def isArray (o : Obj) : Bool :=
  match o.kind with
  | .array _ => true
  | _ => false

/-- A fresh object of class `cls` with no own properties. -/
def plain (cls : ClassTag) (proto : Option ObjId) : Obj := ⟨.ordinary, cls, [], proto⟩

end Obj

end EcmaLite
