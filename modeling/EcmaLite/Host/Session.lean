import EcmaLite.Host.View
import EcmaLite.Machine.Run

/-!
# Host sessions

A host drives the engine through a session: up to eight environments over one shared heap,
scopes it names itself, and handles of compiled scripts.

An environment has its own global object and its own global scope, a scope outside every other
that top-level code runs in (so top-level `var`s land there, not on the global object), and one
slot for a compiled script. Environments are made when first named, in order of their number.

Each request runs on the session as it is, and its effects stay whether it succeeds or not.
Its answer carries what scripts printed during it.

Requests that run code first set the running context: the environment's global object, and
the scope the code runs in with the global object as receiver (which is where an `eval` that no
script call precedes runs). The count of calls running is left as it is: every run ends with
the count it started with.
-/

namespace EcmaLite

/-- The limits a session starts with unless the host sets others. -/
def Limits.standard : Limits := ⟨128, 10000⟩

/-- A value as a host writes it. -/
inductive Spec where
  | undefined
  | null
  | bool (b : Bool)
  | str (s : String)
  /-- A number as written: `digits · 10^exponent` with a sign; `whole` when it was written
  without point or exponent. -/
  | numeral (negative : Bool) (digits : Nat) (exponent : Int) (whole : Bool)
  | num (n : Number)
  /-- A top-level name, read as `Session.lookup` does. -/
  | lookup (name : String)
  /-- Source text run in the global scope; its completion value. -/
  | eval (src : String)

/-- The number a host's numeral denotes. A whole numeral that fits a signed 64-bit word is that
`int`, except `-0`, which is negative zero; every other numeral is the nearest double (negative
zero included) in normal form. -/
def Spec.numberOf (negative : Bool) (digits : Nat) (exponent : Int) (whole : Bool) : Number :=
  let i : Int := if negative then -(digits : Int) else digits
  if whole ∧ ¬(negative ∧ digits = 0) ∧ Number.wordMin ≤ i ∧ i ≤ Number.wordMax then .int i
  else
    let f := Double.ofDecimal digits exponent
    Number.ofFloat (if negative then -f else f)

/-- What a host asks of an environment. -/
inductive Op where
  /-- Runs source text in the global scope. -/
  | eval (src : String)
  /-- Runs source text in a scope: `global` or one the host named. -/
  | evalIn (src scope : String)
  /-- Names a new scope inside `parent`: the global scope when none is given, no scope at all
  for `none`, else a scope the host named. -/
  | newScope (name : String) (parent : Option String)
  /-- Binds a name in a scope itself. -/
  | bind (scope name : String) (value : Spec)
  /-- The value of a name along a scope's chain, without the global object. -/
  | resolve (scope name : String)
  /-- Compiles source text into the environment's script slot. -/
  | evaluate (src : String)
  /-- Runs the script of a handle, in the given environment or else in the one that issued
  it. -/
  | invoke (handle : Nat) (target : Option Nat)
  /-- Runs the script in the slot. -/
  | runLast
  /-- A top-level name: the global scope's chain, then the global object. -/
  | lookup (name : String)
  /-- Calls a function with a receiver and arguments. -/
  | call (fn this : Spec) (args : List Spec)
  /-- Changes an object's prototype to an object, or to none for `null`. -/
  | setPrototype (object proto : Spec)
  /-- Reads source text into a syntax tree. -/
  | parse (src : String)

/-- A request: an operation on environment `env`. -/
structure Request where
  env : Nat
  op : Op

/-- The answer to a request, apart from what was printed. -/
inductive Reply where
  | value (v : Shown)
  | fault (f : Fault)
  /-- The request itself was malformed. -/
  | refused (message : String)
  | handle (n : Nat)
  | ok
  | unbound
  | tree (p : Program)
  | unreadable (e : ParseError)

/-- A reply with what scripts printed while it was made. -/
structure Answer where
  reply : Reply
  out : String

/-- One environment. -/
structure Env where
  global : ObjId
  scope : ScopeId
  /-- The script compiled last, if any. -/
  script : Option Code

/-- A session. -/
structure Session where
  world : World
  envs : Array Env
  /-- The scopes the host named, latest first. -/
  named : List (String × ScopeId)
  /-- The environment that issued each handle. -/
  handles : Array Nat

/-- Making a reply, with the session changed even when it fails. -/
abbrev Host := EStateM Reply Session

namespace Session

/-- Fuel for one request: more steps than a request can take in practice. -/
def fuel : Nat := Nat.pow 2 62

/-- A session with the shared prototypes and no environment yet. -/
def start (limits : Limits) : Session := ⟨World.start limits, #[], [], #[]⟩

/-- Adds the next environment. -/
def addEnv (s : Session) : Session :=
  let (g, w) := s.world.allocGlobal
  let (sc, w) := w.newScope none
  { s with world := w, envs := s.envs.push ⟨g, sc, none⟩ }

/-- Adds `n` environments. -/
def addEnvs (s : Session) : Nat → Session
  | 0 => s
  | n + 1 => (s.addEnvs n).addEnv

/-- Environment `k`, made with those before it when it does not exist yet. -/
def env (k : Nat) : Host Env := do
  modify fun s => s.addEnvs (k + 1 - s.envs.size)
  return (← get).envs[k]?.getD ⟨0, 0, none⟩

/-- Runs machine code on the session's world; its faults become the reply. -/
def machine {α : Type} (r : Run α) : Host α := fun s =>
  match r s.world with
  | .ok a w => .ok a { s with world := w }
  | .error f w => .error (.fault f) { s with world := w }

/-- Sets the running context for code of environment `e` running in scope `sc`; the count of
calls running stays. -/
def enter (e : Env) (sc : ScopeId) : Host Unit :=
  modify fun s => { s with world := { s.world with
    ctx := ⟨e.global, s.world.ctx.depth, sc, .obj e.global⟩ } }

/-- Runs source text in scope `sc` of environment `e`, the global object as receiver. -/
def evalIn (e : Env) (src : String) (sc : ScopeId) : Host Value := do
  enter e sc
  machine (EcmaLite.evalIn fuel src sc (.obj e.global))

/-- A top-level name of environment `e`. -/
def lookup (e : Env) (name : String) : Host Value := do
  let w := (← get).world
  match w.resolve e.scope name with
  | some v => return v
  | none => machine (Run.lift (w.getProp e.global name))

/-- The scope a host's name stands for. -/
def scopeNamed (e : Env) (name : String) : Host ScopeId := do
  if name = "global" then return e.scope
  match (← get).named.lookup name with
  | some sc => return sc
  | none => throw (.refused ("unknown scope " ++ name))

/-- The value a host wrote, in environment `e`. -/
def value (e : Env) : Spec → Host Value
  | .undefined => pure .undefined
  | .null => pure .null
  | .bool b => pure (.bool b)
  | .str s => pure (.str s)
  | .numeral neg ds x whole => pure (.num (Spec.numberOf neg ds x whole))
  | .num n => pure (.num n)
  | .lookup name => lookup e name
  | .eval src => evalIn e src e.scope

/-- The values a host wrote, in order. -/
def values (e : Env) : List Spec → Host (List Value)
  | [] => pure []
  | v :: vs => do
    let a ← value e v
    return a :: (← values e vs)

/-- Runs the script in the slot of environment `e` in a fresh scope outside every other. -/
def runLast (e : Env) : Host Value := do
  match e.script with
  | none => throw (.fault .noScript)
  | some code =>
    let sc ← machine (Run.make (World.newScope none))
    enter e sc
    machine (invoke fuel code e.global sc (.obj e.global) [])

/-- The reply of a request whose result is a value. -/
def shown (v : Value) : Host Reply := do return .value ((← get).world.display v)

/-- Runs one operation on environment `k`. -/
def perform (k : Nat) : Op → Host Reply
  | .eval src => do
    let e ← env k
    shown (← evalIn e src e.scope)
  | .evalIn src scope => do
    let e ← env k
    shown (← evalIn e src (← scopeNamed e scope))
  | .newScope name parent => do
    let e ← env k
    if name = "global" then throw (.refused "scope name global is reserved")
    let outer ← match parent with
      | none => pure (some e.scope)
      | some "none" => pure none
      | some p => some <$> scopeNamed e p
    let sc ← machine (Run.make (World.newScope outer))
    modify fun s => { s with named := (name, sc) :: s.named }
    return .ok
  | .bind scope name v => do
    let e ← env k
    let sc ← scopeNamed e scope
    let a ← value e v
    machine (modify (World.bind sc name a))
    return .ok
  | .resolve scope name => do
    let e ← env k
    let sc ← scopeNamed e scope
    match (← get).world.resolve sc name with
    | some v => shown v
    | none => return .unbound
  | .evaluate src => do
    let _ ← env k
    let code ← machine (Run.lift (Run.compileSource src))
    let s ← get
    set { s with envs := s.envs.modify k fun e => { e with script := some code },
                 handles := s.handles.push k }
    return .handle s.handles.size
  | .invoke h target => do
    match (← get).handles[h]? with
    | none => throw (.refused "unknown handle")
    | some issuer =>
      let t := target.getD issuer
      let e ← env t
      if t ≠ issuer then throw (.fault .foreignHandle)
      shown (← runLast e)
  | .runLast => do
    let e ← env k
    shown (← runLast e)
  | .lookup name => do
    let e ← env k
    shown (← lookup e name)
  | .call fn this args => do
    let e ← env k
    let f ← value e fn
    let r ← value e this
    let as ← values e args
    enter e e.scope
    shown (← machine (callWith fuel f r as))
  | .setPrototype object proto => do
    let e ← env k
    match ← value e object with
    | .obj id =>
      let p ← match ← value e proto with
        | .obj pid => pure (some pid)
        | .null => pure none
        | _ => throw (.refused "proto must evaluate to an object or null")
      shown (.bool (← machine (World.setProto id p)))
    | _ => throw (.refused "object must evaluate to an object")
  | .parse src =>
    match Program.parse src with
    | .ok p => return .tree p
    | .error e => return .unreadable e

/-- Answers one request: the reply, and what scripts printed meanwhile. -/
def answer (req : Request) (s : Session) : Answer × Session :=
  let s := { s with world := { s.world with printed := #[] } }
  let (reply, s) := match perform req.env req.op s with
    | .ok r s => (r, s)
    | .error r s => (r, s)
  (⟨reply, String.join s.world.printed.toList⟩, s)

/-- Answers requests in order on one session; a request the host could not write is refused
with the reason given. -/
def answerAll (s : Session) : List (Except String Request) → List Answer
  | [] => []
  | .error why :: rest => ⟨.refused why, ""⟩ :: answerAll s rest
  | .ok req :: rest =>
    let (a, s) := s.answer req
    a :: answerAll s rest

end Session

end EcmaLite
