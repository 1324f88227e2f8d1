import EcmaLite.Realm
import EcmaLite.Code.Compile

/-!
# Running code

The stack machine. A `Frame` runs one invocation of compiled code: an instruction pointer, an
operand stack, the scope, the receiver `this`, the completion value of the last expression
statement, and the global object that free names fall back to. Calls of script functions run a
new frame in a new scope whose outer scope is the one the function closes over.

Every call, built-in or not, goes through `callWith`: it refuses values that are no functions,
refuses to start a call when `maxCallDepth` calls are already running, and counts the call while
it runs, also when it stops with a fault. Before a call, `new` or method call the machine
records its scope and `this` as the caller's, which is where `eval` runs.

All functions take fuel, spent one unit per step; running out is a fault. A host gives more fuel
than any run can use in practice.
-/

namespace EcmaLite

/-- One invocation of compiled code. -/
structure Frame where
  code : Code
  ip : Nat
  stack : List Value
  scope : ScopeId
  this : Value
  completion : Value
  global : ObjId

namespace Frame

/-- The frame with `v` pushed. -/
def push (fr : Frame) (v : Value) : Frame := { fr with stack := v :: fr.stack }

/-- The top value, `undefined` on an empty stack, and the frame without it. -/
def pop (fr : Frame) : Value × Frame :=
  match fr.stack with
  | v :: rest => (v, { fr with stack := rest })
  | [] => (.undefined, fr)

/-- The two top values in the order they were pushed, and the frame without them. -/
def pop2 (fr : Frame) : Value × Value × Frame :=
  let (b, fr) := fr.pop
  let (a, fr) := fr.pop
  (a, b, fr)

/-- The top `n` values (fewer if the stack is shorter) in the order they were pushed. -/
def popN (fr : Frame) (n : Nat) : List Value × Frame :=
  ((fr.stack.take n).reverse, { fr with stack := fr.stack.drop n })

/-- The top value, `undefined` on an empty stack. -/
def peek (fr : Frame) : Value := fr.stack.headD .undefined

/-- The value of constant `k`. -/
def const (fr : Frame) (k : Nat) : Value :=
  match fr.code.consts[k]? with
  | some (.str s) => .str s
  | some (.num n) => .num n
  | none => .undefined

/-- Name `k` of the name table. -/
def name (fr : Frame) (k : Nat) : String := fr.code.nameAt k

/-- The frame continuing at instruction `target`. -/
def goto (fr : Frame) (target : Nat) : Frame := { fr with ip := target }

end Frame

/-- What an instruction leaves to do: go on with a frame, or finish the invocation. -/
inductive Next where
  | go (fr : Frame)
  | finish (v : Value)

namespace Run

/-- The result of a lookup, or its fault. -/
def lift {α : Type} : Except Fault α → Run α
  | .ok a => pure a
  | .error f => throw f

/-- A world step that makes something. -/
def make {α : Type} (f : World → α × World) : Run α := modifyGet f

/-- The text of a value. -/
def text (v : Value) : Run String := do return (← get).text v

/-- Property `key` of any value: objects look it up along their prototypes; strings have their
`length` and their characters at canonical indices; other primitives have nothing; reading from
`undefined` or `null` is a fault. -/
def getProp (base : Value) (key : String) : Run Value := do
  let w ← get
  match base with
  | .obj id => lift (w.getProp id key)
  | .undefined => throw (.readOfNothing key false)
  | .null => throw (.readOfNothing key true)
  | .str s =>
    if key = lengthKey then return .num (.int s.length)
    else
      match arrayIndex? key with
      | some i => return ((s.toList[i]?).map fun c => .str (String.singleton c)).getD .undefined
      | none => return .undefined
  | .bool _ | .num _ => return .undefined

/-- Element `key` of any value: an array serves a present element at a non-negative `int`
index directly; everything else reads the property named by the key's text. -/
def getElem (base key : Value) : Run Value := do
  let w ← get
  match base, key with
  | .obj id, .num (.int i) =>
    match (w.obj id).kind with
    | .array es =>
      match (if 0 ≤ i then es[i.toNat]?.join else none) with
      | some v => return v
      | none => lift (w.getProp id (w.text key))
    | _ => lift (w.getProp id (w.text key))
  | .obj id, _ => lift (w.getProp id (w.text key))
  | _, _ => getProp base (w.text key)

/-- Writes property `key` of any value: objects store it as their own; writes to other
primitives are dropped; writing to `undefined` or `null` is a fault. -/
def setProp (base : Value) (key : String) (v : Value) : Run Unit := do
  match base with
  | .obj id => modify (World.put id key v)
  | .undefined => throw (.writeToNothing key false)
  | .null => throw (.writeToNothing key true)
  | _ => pure ()

/-- Deletes own property `key` of any value; the answer is `true` whatever happened, and
deleting from `undefined` or `null` is a fault. -/
def deleteProp (base : Value) (key : String) : Run Bool := do
  match base with
  | .obj id =>
    modify fun w => w.update id (·.deleteOwn key)
    return true
  | .undefined => throw (.deleteFromNothing false)
  | .null => throw (.deleteFromNothing true)
  | _ => return true

/-- The value of a name: the nearest binding in the scope chain, else the property of the
global object, `undefined` when that is missing too. -/
def getVar (fr : Frame) (name : String) : Run Value := do
  let w ← get
  match w.resolve fr.scope name with
  | some v => return v
  | none => lift (w.getProp fr.global name)

/-- Assigns a name: the nearest binding, else a property of the global object. -/
def setVar (fr : Frame) (name : String) (v : Value) : Run Unit :=
  modify fun w =>
    match w.lookupScope fr.scope name with
    | some s => w.bind s name v
    | none => w.put fr.global name v

/-- `typeof name`: the type of the binding or global property, `undefined` when neither
exists. -/
def typeOfVar (fr : Frame) (name : String) : Run String := do
  let w ← get
  match w.resolve fr.scope name with
  | some v => return w.typeName v
  | none =>
    if ← lift (w.hasProp fr.global name) then
      return w.typeName (← lift (w.getProp fr.global name))
    else return "undefined"

/-- A double in normal form as a value. -/
def number (f : Float) : Value := .num (Number.ofFloat f)

/-- `+`: two `int`s add as doubles; a string on either side concatenates with the text of the
other; an array on either side concatenates the texts of both; all else adds as doubles. -/
def add (a b : Value) : Run Value := do
  let w ← get
  match a, b with
  | .num (.int x), .num (.int y) => return number (Double.ofInt x + Double.ofInt y)
  | .str x, _ => return .str (x ++ w.text b)
  | _, .str y => return .str (w.text a ++ y)
  | _, _ =>
    if w.isArray a || w.isArray b then return .str (w.text a ++ w.text b)
    else return number (a.toFloat + b.toFloat)

/-- `a instanceof F`: whether `F.prototype` is on the prototype chain of `a`. -/
def instanceOf (a f : Value) : Run Bool := do
  let w ← get
  match f with
  | .obj fid =>
    if !(w.obj fid).isCallable then throw .instanceofNotCallable
    match a with
    | .obj id =>
      match ← lift (w.getProp fid "prototype") with
      | .obj target => lift (w.inheritsFrom id target)
      | _ => throw .instanceofBadPrototype
    | _ => return false
  | _ => throw .instanceofNotCallable

/-- `key in o`. -/
def hasIn (key o : Value) : Run Bool := do
  let w ← get
  match o with
  | .obj id => lift (w.hasProp id (w.text key))
  | _ => throw (.inOnPrimitive (w.text key) (w.text o))

/-- The number an update makes of `old`. -/
def bump (op : UpdateOp) (old : Number) : Number :=
  Number.ofFloat (old.toFloat + (match op with | .inc => 1 | .dec => -1))

/-- `++`/`--` on property `key` of `base`: the new number for a prefix update, the old one for
a postfix update. -/
def updateProp (base : Value) (key : String) (op : UpdateOp) (isPrefix : Bool) : Run Value := do
  let old := (← getProp base key).toNumber
  let new := bump op old
  setProp base key (.num new)
  return .num (if isPrefix then new else old)

/-- A closure of function literal `k` of the frame's code. A named function expression gets a
scope of its own in which its name is bound to it. -/
def makeClosure (fr : Frame) (k : Nat) : Run Value := do
  let code := fr.code.funcs[k]?.getD default
  let scope ← if code.bindsOwnName then make (World.newScope (some fr.scope)) else pure fr.scope
  let f ← make (World.allocFunction code.name (.script code scope fr.global))
  if code.bindsOwnName then modify (World.bind scope code.name (.obj f))
  return .obj f

/-- Records the frame's scope and `this` as those of the caller. -/
def exposeCaller (fr : Frame) : Run Unit :=
  modify fun w => { w with ctx := { w.ctx with callerScope := fr.scope, callerThis := fr.this } }

/-- The prototype `Object` gives new objects: `Object.prototype` of the running environment
when that is an object, else the shared object prototype. -/
def objectPrototype : Run ObjId := do
  let w ← get
  match ← lift (w.getProp w.ctx.global "Object") with
  | .obj ctor =>
    match ← lift (w.getProp ctor "prototype") with
    | .obj p => return p
    | _ => return w.protos.object
  | _ => return w.protos.object

/-- Whether `this` of `hasOwnProperty` has own property `key`: objects their own; strings
`length` and the indices of their characters. -/
def hasOwn (this : Value) (key : String) : Run Bool := do
  let w ← get
  match this with
  | .obj id => return (w.obj id).hasOwn key
  | .str s => return key = lengthKey || (match arrayIndex? key with
      | some i => i < s.length
      | none => false)
  | _ => return false

/-- The tag `Object.prototype.toString` shows for a value. -/
def classTag (this : Value) : Run String := do
  let w ← get
  match this with
  | .undefined => return "Undefined"
  | .null => return "Null"
  | .str _ => return "String"
  | .bool _ => return "Boolean"
  | .num _ => return "Number"
  | .obj id => return (w.obj id).cls.name

/-- Binds parameters to arguments in scope `s`, in order: a missing argument is `undefined`,
and of two parameters of one name the later wins. -/
def bindParams (s : ScopeId) : List String → List Value → Run Unit
  | [], _ => pure ()
  | p :: ps, args => do
    modify (World.bind s p (args.headD .undefined))
    bindParams s ps args.tail

/-- Reads and compiles source text; reading faults quote the source. -/
def compileSource (src : String) : Except Fault Code :=
  match Program.parse src with
  | .error e => .error (.unreadable e src)
  | .ok p => p.compile

end Run

open Run in
mutual

/-- Runs a frame to its end. -/
def exec : Nat → Frame → Run Value
  | 0, _ => throw .outOfFuel
  | n + 1, fr => fun w =>
    match fr.code.instrs[fr.ip]? with
    | none => .ok fr.completion w
    | some i =>
      match step n { fr with ip := fr.ip + 1 } i w with
      | .ok (.go fr') w' => exec n fr' w'
      | .ok (.finish v) w' => .ok v w'
      | .error e w' => .error e w'

/-- Runs one instruction; the frame's instruction pointer already points past it. -/
def step : Nat → Frame → Instr → Run Next
  | 0, _, _ => throw .outOfFuel
  | n + 1, fr, i =>
    match i with
    | .pushConst k => return .go (fr.push (fr.const k))
    | .pushUndefined => return .go (fr.push .undefined)
    | .pushNull => return .go (fr.push .null)
    | .pushTrue => return .go (fr.push (.bool true))
    | .pushFalse => return .go (fr.push (.bool false))
    | .add => do
      let (a, b, fr) := fr.pop2
      return .go (fr.push (← add a b))
    | .sub => arith fr fun x y => x - y
    | .mul => arith fr fun x y => x * y
    | .div => arith fr fun x y => x / y
    | .mod => arith fr Double.rem
    | .negate =>
      let (a, fr) := fr.pop
      return .go (fr.push (number (-a.toFloat)))
    | .toNumber =>
      let (a, fr) := fr.pop
      return .go (fr.push (.num a.toNumber))
    | .strictEq => test fr Value.strictEq
    | .strictNe => test fr fun a b => !a.strictEq b
    | .looseEq => test fr Value.looseEq
    | .looseNe => test fr fun a b => !a.looseEq b
    | .lt => test fr fun a b => a.order b == some .lt
    | .le => test fr fun a b => match a.order b with
        | some .gt | none => false
        | _ => true
    | .gt => test fr fun a b => a.order b == some .gt
    | .ge => test fr fun a b => match a.order b with
        | some .lt | none => false
        | _ => true
    | .instanceOf => do
      let (a, f, fr) := fr.pop2
      return .go (fr.push (.bool (← instanceOf a f)))
    | .hasIn => do
      let (k, o, fr) := fr.pop2
      return .go (fr.push (.bool (← hasIn k o)))
    | .not =>
      let (a, fr) := fr.pop
      return .go (fr.push (.bool !a.truthy))
    | .typeOf => do
      let (a, fr) := fr.pop
      return .go (fr.push (.str ((← get).typeName a)))
    | .typeOfVar k => do return .go (fr.push (.str (← typeOfVar fr (fr.name k))))
    | .void =>
      let (_, fr) := fr.pop
      return .go (fr.push .undefined)
    | .getVar k => do return .go (fr.push (← getVar fr (fr.name k)))
    | .setVar k => do
      setVar fr (fr.name k) fr.peek
      return .go fr
    | .declareVar k => do
      modify (World.declare fr.scope (fr.name k))
      return .go fr
    | .bindFunction k => do
      let (f, fr) := fr.pop
      modify (World.bind fr.scope (fr.name k) f)
      return .go fr
    | .jump t => return .go (fr.goto t)
    | .jumpIfFalse t =>
      let (a, fr) := fr.pop
      return .go (if a.truthy then fr else fr.goto t)
    | .jumpIfTrue t =>
      let (a, fr) := fr.pop
      return .go (if a.truthy then fr.goto t else fr)
    | .pop => return .go fr.pop.2
    | .dup => return .go (fr.push fr.peek)
    | .dup2 =>
      let (a, b, fr) := fr.pop2
      return .go (((fr.push a).push b |>.push a).push b)
    | .getProp k => do
      let (base, fr) := fr.pop
      return .go (fr.push (← getProp base (fr.name k)))
    | .setProp k => do
      let (base, v, fr) := fr.pop2
      setProp base (fr.name k) v
      return .go (fr.push v)
    | .getElem => do
      let (base, key, fr) := fr.pop2
      return .go (fr.push (← getElem base key))
    | .setElem => do
      let (v, fr) := fr.pop
      let (base, key, fr) := fr.pop2
      setProp base ((← get).text key) v
      return .go (fr.push v)
    | .deleteProp k => do
      let (base, fr) := fr.pop
      return .go (fr.push (.bool (← deleteProp base (fr.name k))))
    | .deleteElem => do
      let (base, key, fr) := fr.pop2
      return .go (fr.push (.bool (← deleteProp base ((← get).text key))))
    | .newObject => do return .go (fr.push (.obj (← make World.allocObject)))
    | .initProp k => do
      let (target, v, fr) := fr.pop2
      match target with
      | .obj id =>
        modify (World.put id (fr.name k) v)
        return .go (fr.push target)
      | _ => return .go fr
    | .newArray c => do
      let (es, fr) := fr.popN c
      return .go (fr.push (.obj (← make (World.allocArray es))))
    | .makeClosure k => do return .go (fr.push (← makeClosure fr k))
    | .call c => do
      let (args, fr) := fr.popN c
      let (f, fr) := fr.pop
      exposeCaller fr
      let r ← callWith n f (.obj (← get).ctx.global) args
      return .go (fr.push r)
    | .callMethod c => do
      let (args, fr) := fr.popN c
      let (this, f, fr) := fr.pop2
      exposeCaller fr
      let r ← callWith n f this args
      return .go (fr.push r)
    | .construct c => do
      let (args, fr) := fr.popN c
      let (f, fr) := fr.pop
      exposeCaller fr
      let r ← construct n f args
      return .go (fr.push r)
    | .this => return .go (fr.push fr.this)
    | .updateVar k op isPrefix => do
      let name := fr.name k
      let old := (← getVar fr name).toNumber
      let new := bump op old
      setVar fr name (.num new)
      return .go (fr.push (.num (if isPrefix then new else old)))
    | .updateProp k op isPrefix => do
      let (base, fr) := fr.pop
      return .go (fr.push (← updateProp base (fr.name k) op isPrefix))
    | .updateElem op isPrefix => do
      let (base, key, fr) := fr.pop2
      return .go (fr.push (← updateProp base ((← get).text key) op isPrefix))
    | .setCompletion =>
      let (v, fr) := fr.pop
      return .go { fr with completion := v }
    | .ret => return .finish fr.pop.1
    | .halt => return .finish fr.completion
where
  /-- Arithmetic on the doubles of the two top values. -/
  arith (fr : Frame) (f : Float → Float → Float) : Run Next :=
    let (a, b, fr) := fr.pop2
    return .go (fr.push (number (f a.toFloat b.toFloat)))
  /-- A test of the two top values. -/
  test (fr : Frame) (f : Value → Value → Bool) : Run Next :=
    let (a, b, fr) := fr.pop2
    return .go (fr.push (.bool (f a b)))

/-- Calls `f` with receiver `this`: a fault for a value that is no function, or when the call
depth limit is reached; otherwise the call is counted while it runs. -/
def callWith : Nat → Value → Value → List Value → Run Value
  | 0, _, _, _ => throw .outOfFuel
  | n + 1, f, this, args => do
    let w ← get
    match f with
    | .obj id =>
      if !(w.obj id).isCallable then throw (.notCallable (w.text f))
      if w.ctx.depth ≥ w.limits.maxCallDepth then throw (.callDepth w.limits.maxCallDepth)
      modify fun w => { w with ctx := { w.ctx with depth := w.ctx.depth + 1 } }
      let leave : Run Unit :=
        modify fun w => { w with ctx := { w.ctx with depth := w.ctx.depth - 1 } }
      let r ← tryCatch (callObject n id this args) fun e => do
        leave
        throw e
      leave
      return r
    | _ => throw (.notCallable (w.text f))

/-- Runs function object `id`: a built-in directly, a script function in a new scope inside
the scope it closes over. -/
def callObject : Nat → ObjId → Value → List Value → Run Value
  | 0, _, _, _ => throw .outOfFuel
  | n + 1, id, this, args => do
    match (← get).obj id |>.kind with
    | .function _ (.native k) => native n k this args
    | .function _ (.script code scope global) =>
      let s ← make (World.newScope (some scope))
      invoke n code global s this args
    | _ => throw (.notCallable ((← get).text (.obj id)))

/-- Runs code in scope `s` with receiver `this`, its parameters bound there first (missing
arguments are `undefined`, extra ones are dropped). -/
def invoke : Nat → Code → ObjId → ScopeId → Value → List Value → Run Value
  | 0, _, _, _, _, _ => throw .outOfFuel
  | n + 1, code, global, s, this, args => do
    bindParams s code.params args
    exec n ⟨code, 0, [], s, this, .undefined, global⟩

/-- `new F(args)`: a fresh object inheriting from `F.prototype` (the shared object prototype
when that is no object) is the receiver of the call and the result, whatever the call returns. -/
def construct : Nat → Value → List Value → Run Value
  | 0, _, _ => throw .outOfFuel
  | n + 1, f, args => do
    let w ← get
    match f with
    | .obj id =>
      if !(w.obj id).isCallable then throw (.notConstructor (w.text f))
      let proto ← match ← lift (w.getProp id "prototype") with
        | .obj p => pure p
        | _ => pure w.protos.object
      let inst ← make (World.allocPlain (some proto))
      discard (callWith n f (.obj inst) args)
      return .obj inst
    | _ => throw (.notConstructor (w.text f))

/-- Compiles `src` and runs it at once in scope `s` with receiver `this`. -/
def evalIn : Nat → String → ScopeId → Value → Run Value
  | 0, _, _, _ => throw .outOfFuel
  | n + 1, src, s, this => do
    let code ← lift (compileSource src)
    invoke n code (← get).ctx.global s this []

/-- The built-in routines. -/
def native : Nat → Native → Value → List Value → Run Value
  | 0, _, _, _ => throw .outOfFuel
  | n + 1, k, this, args => do
    match k with
    | .eval =>
      match args with
      | .str src :: _ =>
        let w ← get
        evalIn n src w.ctx.callerScope w.ctx.callerThis
      | v :: _ => return v
      | [] => return .undefined
    | .print =>
      for a in args do
        let t ← text a
        modify fun w => { w with printed := w.printed.push (t ++ "\n") }
      return args.headD .undefined
    | .objectCtor =>
      match args with
      | .obj id :: _ => return .obj id
      | _ =>
        let proto ← objectPrototype
        let w ← get
        match this with
        | .obj id =>
          if (w.obj id).proto == some proto then return this
          else return .obj (← make (World.allocPlain (some proto)))
        | _ => return .obj (← make (World.allocPlain (some proto)))
    | .hasOwnProperty =>
      let key ← text (args.headD .undefined)
      return .bool (← hasOwn this key)
    | .toString => return .str ("[object " ++ (← classTag this) ++ "]")
    | .call =>
      match args with
      | receiver :: rest => callWith n this receiver rest
      | [] => callWith n this .undefined []

end

end EcmaLite
