import EcmaLite.Proofs.Keeps

/-!
# Steps that leave the running context alone

Three things write the running context of a world (`World.ctx`: the environment's global
object, the count of calls running, and the scope and receiver of the latest caller): `callWith`,
which counts a call while it runs, `exposeCaller`, which records the caller before a call, and a
host that enters an environment. Nothing writes the limits or the shared prototypes. Every other
step of the machine leaves all three as they are, and this module proves it once for each of
them and for every instruction that makes no call (`Run.step_steady`), so that the proofs about
calls only have the calls to look at.

`Run.Steady F x w` says that a run of `x` from a world `w` whose frame is `F` ends, with a result
or with a fault, in a world whose frame is still `F`. It is the `Keeps` of `Proofs.Keeps` with
the frame for invariant and no measure, so the same combinators take it through a run.
-/

namespace EcmaLite

/-- What only calls and hosts change: the running context, the limits and the shared
prototypes. -/
def World.frame (w : World) : Context × Limits × Protos := (w.ctx, w.limits, w.protos)

namespace World

variable {w : World}

@[simp] theorem frame_update {id : ObjId} {f : Obj → Obj} : (w.update id f).frame = w.frame := rfl

@[simp] theorem frame_put {id : ObjId} {key : String} {v : Value} :
    (w.put id key v).frame = w.frame := rfl

@[simp] theorem frame_bind {s : ScopeId} {name : String} {v : Value} :
    (w.bind s name v).frame = w.frame := rfl

@[simp] theorem frame_declare {s : ScopeId} {name : String} :
    (w.declare s name).frame = w.frame := by
  unfold declare
  split <;> rfl

@[simp] theorem frame_newScope {outer : Option ScopeId} : (w.newScope outer).2.frame = w.frame :=
  rfl

@[simp] theorem frame_allocPlain {proto : Option ObjId} : (w.allocPlain proto).2.frame = w.frame :=
  rfl

@[simp] theorem frame_allocObject : w.allocObject.2.frame = w.frame := rfl

@[simp] theorem frame_allocArray {elems : List Value} : (w.allocArray elems).2.frame = w.frame :=
  rfl

@[simp] theorem frame_allocFunction {name : String} {body : Callable} :
    (w.allocFunction name body).2.frame = w.frame := rfl

@[simp] theorem frame_alloc {o : Obj} : (w.alloc o).2.frame = w.frame := rfl

@[simp] theorem frame_installNative {target : ObjId} {name : String} {k : Native} :
    (w.installNative target name k).frame = w.frame := rfl

@[simp] theorem frame_allocGlobal : w.allocGlobal.2.frame = w.frame := by
  unfold allocGlobal
  simp only [frame_put, frame_alloc, frame_allocFunction, frame_installNative]

@[simp] theorem frame_with_printed {out : Array String} :
    { w with printed := out }.frame = w.frame := rfl

end World

/-- Whether an instruction calls: `f(...)`, `o.m(...)` and `new F(...)`. -/
def Instr.makesCall : Instr → Bool
  | .call _ | .callMethod _ | .construct _ => true
  | _ => false

/-- Whether a built-in runs code of its own: `eval` runs source text, and `call` calls its
receiver. -/
def Native.runsCode : Native → Bool
  | .eval | .call => true
  | _ => false

namespace Run

/-- Running `x` from `w` ends, with a result or with a fault, in a world of frame `F`. -/
abbrev Steady {α : Type} (F : Context × Limits × Protos) (x : Run α) (w : World) : Prop :=
  EcmaLite.Keeps (fun w' : World => w'.frame = F) (fun _ => 0) x w fun _ _ => True

variable {α : Type} {F : Context × Limits × Protos} {w : World}

theorem steady_pure (h : w.frame = F) {a : α} : Steady F (pure a) w := ⟨⟨h, Nat.le_refl 0⟩, trivial⟩

theorem steady_throw (h : w.frame = F) {e : Fault} : Steady F (throw e : Run α) w :=
  ⟨h, Nat.le_refl 0⟩

theorem steady_throw_bind {β : Type} (h : w.frame = F) {e : Fault} {g : β → Run α} :
    Steady F (throw e >>= g) w :=
  ⟨h, Nat.le_refl 0⟩

theorem steady_lift (h : w.frame = F) {e : Except Fault α} : Steady F (lift e) w := by
  cases e with
  | error f => exact steady_throw h
  | ok a => exact steady_pure h

/-- A world step that keeps the frame. -/
theorem steady_make {g : World → α × World} (h : w.frame = F) (hg : (g w).2.frame = w.frame) :
    Steady F (make g) w :=
  ⟨⟨hg.trans h, Nat.le_refl 0⟩, trivial⟩

theorem steady_modify {g : World → World} (h : w.frame = F) (hg : (g w).frame = w.frame) :
    Steady F (modify g) w :=
  keeps_modify ⟨hg.trans h, Nat.le_refl 0⟩

/-- A run that reads the world and then runs something steady. -/
theorem steady_get_bind {g : World → Run α} (hg : Steady F (g w) w) : Steady F (get >>= g) w :=
  keeps_get_bind hg

/-- Two steady runs one after the other. -/
theorem steady_bind {β : Type} {x : Run β} {g : β → Run α} (hx : Steady F x w)
    (hg : ∀ b w', w'.frame = F → Steady F (g b) w') : Steady F (x >>= g) w :=
  keeps_bind hx fun b w' hw' _ => hg b w' hw'.1

/-! ## The steps of the machine on the world -/

theorem text_steady (h : w.frame = F) {v : Value} : Steady F (text v) w := steady_pure h

theorem getProp_steady (h : w.frame = F) {base : Value} {key : String} :
    Steady F (getProp base key) w := by
  unfold getProp
  refine steady_get_bind ?_
  cases base with
  | obj id => exact steady_lift h
  | undefined | null => exact steady_throw h
  | str s =>
    dsimp only
    split
    · exact steady_pure h
    · split <;> exact steady_pure h
  | bool _ | num _ => exact steady_pure h

theorem getElem_steady (h : w.frame = F) {base key : Value} : Steady F (getElem base key) w := by
  unfold getElem
  refine steady_get_bind ?_
  split
  · split
    · split
      · exact steady_pure h
      · exact steady_lift h
    · exact steady_lift h
  · exact steady_lift h
  · exact getProp_steady h

theorem setProp_steady (h : w.frame = F) {base v : Value} {key : String} :
    Steady F (setProp base key v) w := by
  unfold setProp
  cases base with
  | obj id => exact steady_modify h World.frame_put
  | undefined | null => exact steady_throw h
  | _ => exact steady_pure h

theorem deleteProp_steady (h : w.frame = F) {base : Value} {key : String} :
    Steady F (deleteProp base key) w := by
  unfold deleteProp
  cases base with
  | obj id =>
    exact steady_bind (steady_modify h World.frame_update) fun _ _ h' => steady_pure h'
  | undefined | null => exact steady_throw h
  | _ => exact steady_pure h

theorem getVar_steady (h : w.frame = F) {fr : Frame} {name : String} :
    Steady F (getVar fr name) w := by
  unfold getVar
  refine steady_get_bind ?_
  split
  · exact steady_pure h
  · exact steady_lift h

theorem setVar_steady (h : w.frame = F) {fr : Frame} {name : String} {v : Value} :
    Steady F (setVar fr name v) w := by
  unfold setVar
  refine steady_modify h ?_
  split <;> simp

theorem typeOfVar_steady (h : w.frame = F) {fr : Frame} {name : String} :
    Steady F (typeOfVar fr name) w := by
  unfold typeOfVar
  refine steady_get_bind ?_
  split
  · exact steady_pure h
  · refine steady_bind (steady_lift h) fun b w' h' => ?_
    split
    · exact steady_bind (steady_lift h') fun _ _ h'' => steady_pure h''
    · exact steady_pure h'

theorem add_steady (h : w.frame = F) {a b : Value} : Steady F (add a b) w := by
  unfold add
  refine steady_get_bind ?_
  split
  · exact steady_pure h
  · exact steady_pure h
  · exact steady_pure h
  · split <;> exact steady_pure h

theorem instanceOf_steady (h : w.frame = F) {a f : Value} : Steady F (instanceOf a f) w := by
  unfold instanceOf
  refine steady_get_bind ?_
  split
  · dsimp only
    split
    · exact steady_throw_bind h
    · refine keeps_pure_bind ?_
      split
      · refine steady_bind (steady_lift h) fun p w' h' => ?_
        split
        · exact steady_lift h'
        · exact steady_throw h'
      · exact steady_pure h
  · exact steady_throw h

theorem hasIn_steady (h : w.frame = F) {key o : Value} : Steady F (hasIn key o) w := by
  unfold hasIn
  refine steady_get_bind ?_
  split
  · exact steady_lift h
  · exact steady_throw h

theorem updateProp_steady (h : w.frame = F) {base : Value} {key : String} {op : UpdateOp}
    {isPrefix : Bool} : Steady F (updateProp base key op isPrefix) w := by
  unfold updateProp
  refine steady_bind (getProp_steady h) fun _ _ h' => ?_
  exact steady_bind (setProp_steady h') fun _ _ h'' => steady_pure h''

theorem makeClosure_steady (h : w.frame = F) {fr : Frame} {k : Nat} :
    Steady F (makeClosure fr k) w := by
  unfold makeClosure
  dsimp only
  split
  · -- a named function expression: a scope of its own, the closure, and its name bound there
    refine steady_bind (steady_make h World.frame_newScope) fun s w1 h1 => ?_
    refine steady_bind (steady_make h1 World.frame_allocFunction) fun f w2 h2 => ?_
    exact steady_bind (steady_modify h2 World.frame_bind) fun _ _ h3 => steady_pure h3
  · refine keeps_pure_bind (steady_bind (steady_make h World.frame_allocFunction) fun _ _ h' => ?_)
    exact steady_pure h'

theorem objectPrototype_steady (h : w.frame = F) : Steady F objectPrototype w := by
  unfold objectPrototype
  refine steady_get_bind (steady_bind (steady_lift h) fun ctor w' h' => ?_)
  split
  · refine steady_bind (steady_lift h') fun p w'' h'' => ?_
    split <;> exact steady_pure h''
  · exact steady_pure h'

theorem hasOwn_steady (h : w.frame = F) {this : Value} {key : String} :
    Steady F (hasOwn this key) w := by
  unfold hasOwn
  refine steady_get_bind ?_
  split <;> exact steady_pure h

theorem classTag_steady (h : w.frame = F) {this : Value} : Steady F (classTag this) w := by
  unfold classTag
  refine steady_get_bind ?_
  split <;> exact steady_pure h

theorem bindParams_steady {s : ScopeId} {ps : List String} {args : List Value}
    (h : w.frame = F) : Steady F (bindParams s ps args) w := by
  induction ps generalizing w args with
  | nil => exact steady_pure h
  | cons p ps ih =>
    unfold bindParams
    exact steady_bind (steady_modify h World.frame_bind) fun _ _ h' => ih h'

/-- Relinking a prototype changes one object and nothing else. -/
theorem setProto_steady (h : w.frame = F) {o : ObjId} {proto : Option ObjId} :
    Steady F (World.setProto o proto) w := by
  unfold World.setProto
  refine steady_get_bind ?_
  have hu : ∀ g : Obj → Obj, (w.update o g).frame = F := fun _ => World.frame_update.trans h
  split
  · exact keeps_set_bind ⟨hu _, Nat.le_refl 0⟩ (steady_pure (hu _))
  · split
    · exact steady_throw h
    · exact steady_pure h
    · exact keeps_set_bind ⟨hu _, Nat.le_refl 0⟩ (steady_pure (hu _))

/-! ## Instructions that make no call -/

variable {n : Nat} {fr : Frame}

/-- Every instruction but the three that call leaves the frame of the world as it is. -/
theorem step_steady (h : w.frame = F) {i : Instr} (hi : i.makesCall = false) :
    Steady F (step (n + 1) fr i) w := by
  cases i
  all_goals simp only [step, step.arith, step.test]
  case call | callMethod | construct => cases hi
  case add => exact steady_bind (add_steady h) fun _ _ h' => steady_pure h'
  case instanceOf => exact steady_bind (instanceOf_steady h) fun _ _ h' => steady_pure h'
  case hasIn => exact steady_bind (hasIn_steady h) fun _ _ h' => steady_pure h'
  case typeOf => exact steady_get_bind (steady_pure h)
  case typeOfVar k => exact steady_bind (typeOfVar_steady h) fun _ _ h' => steady_pure h'
  case getVar k => exact steady_bind (getVar_steady h) fun _ _ h' => steady_pure h'
  case setVar k => exact steady_bind (setVar_steady h) fun _ _ h' => steady_pure h'
  case declareVar k =>
    exact steady_bind (steady_modify h World.frame_declare) fun _ _ h' => steady_pure h'
  case bindFunction k =>
    exact steady_bind (steady_modify h World.frame_bind) fun _ _ h' => steady_pure h'
  case getProp k => exact steady_bind (getProp_steady h) fun _ _ h' => steady_pure h'
  case setProp k => exact steady_bind (setProp_steady h) fun _ _ h' => steady_pure h'
  case getElem => exact steady_bind (getElem_steady h) fun _ _ h' => steady_pure h'
  case setElem =>
    exact steady_get_bind (steady_bind (setProp_steady h) fun _ _ h' => steady_pure h')
  case deleteProp k => exact steady_bind (deleteProp_steady h) fun _ _ h' => steady_pure h'
  case deleteElem =>
    exact steady_get_bind (steady_bind (deleteProp_steady h) fun _ _ h' => steady_pure h')
  case newObject =>
    exact steady_bind (steady_make h World.frame_allocObject) fun _ _ h' => steady_pure h'
  case initProp k =>
    split
    · exact steady_bind (steady_modify h World.frame_put) fun _ _ h' => steady_pure h'
    · exact steady_pure h
  case newArray c =>
    exact steady_bind (steady_make h World.frame_allocArray) fun _ _ h' => steady_pure h'
  case makeClosure k => exact steady_bind (makeClosure_steady h) fun _ _ h' => steady_pure h'
  case updateVar k op isPrefix =>
    refine steady_bind (getVar_steady h) fun _ _ h' => ?_
    exact steady_bind (setVar_steady h') fun _ _ h'' => steady_pure h''
  case updateProp k op isPrefix =>
    exact steady_bind (updateProp_steady h) fun _ _ h' => steady_pure h'
  case updateElem op isPrefix =>
    exact steady_get_bind (steady_bind (updateProp_steady h) fun _ _ h' => steady_pure h')
  -- what is left only moves values between the frame's stack and its other fields
  all_goals exact steady_pure h

/-- The built-ins that run no code of their own leave the frame of the world as it is. -/
theorem native_steady (h : w.frame = F) {k : Native} (hk : k.runsCode = false) {this : Value}
    {args : List Value} : Steady F (native (n + 1) k this args) w := by
  cases k
  case eval | call => cases hk
  case print =>
    simp only [native]
    refine steady_bind (keeps_forIn h fun a _ _ w1 h1 => ?_) fun _ _ h1 => steady_pure h1
    exact steady_bind (text_steady h1) fun _ _ h2 =>
      steady_bind (steady_modify h2 World.frame_with_printed) fun _ _ h3 => steady_pure h3
  case objectCtor =>
    unfold native
    dsimp only
    split
    · exact steady_pure h
    · refine steady_bind (objectPrototype_steady h) fun p w1 h1 => steady_get_bind ?_
      have hnew : Steady F (make (World.allocPlain (some p)) >>= fun inst => pure (Value.obj inst))
          w1 :=
        steady_bind (steady_make h1 World.frame_allocPlain) fun _ _ h2 => steady_pure h2
      split
      · split
        · exact steady_pure h1
        · exact hnew
      · exact hnew
  case hasOwnProperty =>
    simp only [native]
    exact steady_bind (text_steady h) fun _ _ h1 =>
      steady_bind (hasOwn_steady h1) fun _ _ h2 => steady_pure h2
  case toString =>
    simp only [native]
    exact steady_bind (classTag_steady h) fun _ _ h1 => steady_pure h1

end Run

end EcmaLite
