import EcmaLite.Heap.Object
import EcmaLite.Fault

/-!
# The store: heap, scopes and prototype walks

A `World` holds the heap of objects, the scope store, the text printed so far, the shared
prototypes, the limits, and the context of the environment that is running.

Lookups that follow prototypes count *links*: reading or testing a property visits the object
and then its prototypes, and fails with `Fault.chainTooLong` when it would follow more links
than the limit allows. `instanceOf` and `setProto` walk from a prototype and count every object
they pass that is not the one sought.

Scopes are found by walking outward links; a name bound nowhere is reported as such, and the
caller decides what that means.
-/

namespace EcmaLite

/-- The three prototypes every environment of one run shares. -/
structure Protos where
  object : ObjId
  function : ObjId
  array : ObjId
  deriving Inhabited

/-- Limits on running code. -/
structure Limits where
  /-- Calls that may run at once, built-in ones included. -/
  maxCallDepth : Nat
  /-- Prototype links a lookup may follow. -/
  maxChain : Nat
  deriving Inhabited

/-- The context of the running environment: its global object, the calls running, and the scope
and receiver of the code that made the latest call (which `eval` runs in). -/
structure Context where
  global : ObjId
  depth : Nat
  callerScope : ScopeId
  callerThis : Value
  deriving Inhabited

/-- Everything a running script reads and changes. -/
structure World where
  objs : Array Obj
  scopes : Array Scope
  printed : Array String
  protos : Protos
  limits : Limits
  ctx : Context
  deriving Inhabited

/-- Running code: it changes the world, and may stop with a fault, keeping the changes made. -/
abbrev Run := EStateM Fault World

namespace World

/-- The object with id `id`; a plain object for an id that was never allocated. -/
def obj (w : World) (id : ObjId) : Obj := w.objs[id]?.getD default

/-- Adds an object and gives its id. -/
def alloc (o : Obj) (w : World) : ObjId × World :=
  (w.objs.size, { w with objs := w.objs.push o })

/-- Changes the object with id `id`. -/
def update (id : ObjId) (f : Obj → Obj) (w : World) : World :=
  { w with objs := w.objs.modify id f }

/-- Adds a scope inside `outer` and gives its id. -/
def newScope (outer : Option ScopeId) (w : World) : ScopeId × World :=
  (w.scopes.size, { w with scopes := w.scopes.push ⟨[], outer⟩ })

/-- The scope with id `id`. -/
def scope (w : World) (id : ScopeId) : Scope := w.scopes[id]?.getD default

/-- The first value `visit` finds on `id` or the prototypes after it, following at most
`remaining` more links. -/
def findUp {α : Type} (w : World) (visit : Obj → Option α) : Nat → ObjId → Except Fault (Option α)
  | remaining, id =>
    let o := w.obj id
    match visit o with
    | some a => .ok (some a)
    | none =>
      match o.proto with
      | none => .ok none
      | some p =>
        match remaining with
        | 0 => .error (.chainTooLong w.limits.maxChain)
        | r + 1 => findUp w visit r p

/-- The value of property `key` of an object: its own, else the nearest prototype's, else
`undefined`. -/
def getProp (w : World) (id : ObjId) (key : String) : Except Fault Value :=
  (findUp w (·.getOwn key) w.limits.maxChain id).map (·.getD .undefined)

/-- Whether an object or one of its prototypes has property `key`. -/
def hasProp (w : World) (id : ObjId) (key : String) : Except Fault Bool :=
  (findUp w (fun o => if o.hasOwn key then some () else none) w.limits.maxChain id).map
    (·.isSome)

/-- Whether `target` stands on the chain that starts at `id`, counting each object passed that
is not `target` against `remaining`. -/
def chainReaches (w : World) (target : ObjId) : Nat → ObjId → Except Fault Bool
  | remaining, id =>
    if id = target then .ok true
    else
      match remaining with
      | 0 => .error (.chainTooLong w.limits.maxChain)
      | r + 1 =>
        match (w.obj id).proto with
        | none => .ok false
        | some p => chainReaches w target r p

/-- Whether the prototype `target` stands on the chain of prototypes of object `id`. -/
def inheritsFrom (w : World) (id target : ObjId) : Except Fault Bool :=
  match (w.obj id).proto with
  | none => .ok false
  | some p => w.chainReaches target w.limits.maxChain p

/-- Makes `proto` the prototype of `id`, unless `id` is on the chain from `proto`, which would
close a cycle: then nothing changes and the answer is `false`. -/
def setProto (id : ObjId) (proto : Option ObjId) : Run Bool := do
  let w ← get
  match proto with
  | none =>
    set (w.update id fun o => { o with proto := none })
    return true
  | some p =>
    match w.chainReaches id w.limits.maxChain p with
    | .error f => throw f
    | .ok true => return false
    | .ok false =>
      set (w.update id fun o => { o with proto := some p })
      return true

/-! ## Scopes -/

/-- The nearest scope, from `id` outward, that binds `name`; `fuel` bounds the walk. -/
def bindingScope (w : World) (name : String) : Nat → ScopeId → Option ScopeId
  | 0, _ => none
  | fuel + 1, id =>
    let s := w.scope id
    if Props.contains s.vars name then some id
    else
      match s.outer with
      | some o => bindingScope w name fuel o
      | none => none

/-- The nearest scope from `id` outward that binds `name`. -/
def lookupScope (w : World) (id : ScopeId) (name : String) : Option ScopeId :=
  w.bindingScope name (w.scopes.size + 1) id

/-- The value bound to `name` in the nearest scope from `id` outward that binds it. -/
def resolve (w : World) (id : ScopeId) (name : String) : Option Value :=
  (w.lookupScope id name).bind fun s => Props.get? (w.scope s).vars name

/-- Binds `name` to `v` in scope `id` itself, replacing any binding there. -/
def bind (id : ScopeId) (name : String) (v : Value) (w : World) : World :=
  { w with scopes := w.scopes.modify id fun s => { s with vars := Props.set s.vars name v } }

/-- Changes the nearest binding of `name`; `none` when no scope binds it. -/
def assign (id : ScopeId) (name : String) (v : Value) (w : World) : Option World :=
  (w.lookupScope id name).map fun s => w.bind s name v

/-- Declares `name` in scope `id` as `undefined`, keeping a binding already there. -/
def declare (id : ScopeId) (name : String) (w : World) : World :=
  if Props.contains (w.scope id).vars name then w else w.bind id name .undefined

end World

end EcmaLite
