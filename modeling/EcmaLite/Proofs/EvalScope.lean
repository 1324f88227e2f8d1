import EcmaLite.Proofs.CallDepth

/-!
# `eval` runs where it is called

A call of `eval` runs its source in the scope of the code that made the call, with that code's
receiver. The machine does not pass them along with the call: the call instructions record the
scope and `this` of their frame in the running context (`exposeCaller`) just before they call,
a host records an environment's global scope and global object when it enters it, and `eval`
reads them back when it starts. Nothing puts them back when a call returns, so what makes this
right is that nothing between a call instruction and `eval` records another caller: not the
counting of `callWith`, not `Function.prototype.call` stacked any number of times, and not the
object `new` makes before it calls.

`ReachesEval` says how a call reaches `eval`: directly, or through layers of
`Function.prototype.call`. `Run.callWith_reaches_eval` shows that such a call is one counted
call (`Run.counted`) per layer around `evalIn`, with the scope and receiver recorded in the
world the call starts from (`Run.evalCall`). The step lemmas read that back for the three call
instructions of a frame and for a host's call; `evalIn_runs_in_scope` shows that the source runs
as a frame of that very scope, so what it declares lands where its caller looks.
-/

namespace EcmaLite

/-- `w` with `scope` and `this` recorded as those of the caller. -/
def World.exposing (w : World) (scope : ScopeId) (this : Value) : World :=
  { w with ctx := { w.ctx with callerScope := scope, callerThis := this } }

/-- Only allocated objects are functions. -/
theorem World.lt_size_of_callable {w : World} {id : ObjId} (h : (w.obj id).isCallable = true) :
    id < w.objs.size := by
  by_contra hle
  rw [World.obj_of_size_le (Nat.not_lt.mp hle)] at h
  cases h

namespace Frame

/-! Taking operands off the stack leaves the frame's scope and receiver. -/

variable {fr : Frame}

@[simp] theorem pop_scope : fr.pop.2.scope = fr.scope := by
  unfold pop
  split <;> rfl

@[simp] theorem pop_this : fr.pop.2.this = fr.this := by
  unfold pop
  split <;> rfl

@[simp] theorem popN_scope {k : Nat} : (fr.popN k).2.scope = fr.scope := rfl

@[simp] theorem popN_this {k : Nat} : (fr.popN k).2.this = fr.this := rfl

@[simp] theorem pop2_scope : fr.pop2.2.2.scope = fr.scope := by
  simp [pop2]

@[simp] theorem pop2_this : fr.pop2.2.2.this = fr.this := by
  simp [pop2]

end Frame

namespace Run

variable {α β : Type} {n : Nat} {w : World}

/-! ## Runs taken apart at their first step -/

/-- Rewriting the first step of a run where it starts. -/
theorem bind_apply_congr {x y : Run β} {g : β → Run α} (h : x w = y w) :
    (x >>= g) w = (y >>= g) w := by
  show EStateM.bind x g w = EStateM.bind y g w
  simp only [EStateM.bind, h]

/-- Rewriting what follows a step at each world it can end in. -/
theorem bind_apply_congr_ok {x : Run β} {g g' : β → Run α}
    (h : ∀ b w', x w = .ok b w' → g b w' = g' b w') : (x >>= g) w = (x >>= g') w := by
  show EStateM.bind x g w = EStateM.bind x g' w
  simp only [EStateM.bind]
  cases hx : x w with
  | ok b w' => exact h b w' hx
  | error f w' => rfl

/-- Running a step for its effect alone. -/
theorem discard_bind_apply {x : Run β} {g : PUnit → Run α} :
    (discard x >>= g) w = (x >>= fun _ => g ()) w := by
  show EStateM.bind (EStateM.map _ x) g w = EStateM.bind x _ w
  simp only [EStateM.bind, EStateM.map]
  cases x w <;> rfl

theorem exposeCaller_bind_apply {fr : Frame} {g : Unit → Run α} :
    (exposeCaller fr >>= g) w = g () (w.exposing fr.scope fr.this) := rfl

/-! ## Counted calls -/

/-- A counted call of `x`: refused at the limit of calls, else run with one more call counted,
which is taken off again however it ends. -/
def counted (x : Run α) : Run α := fun w =>
  if w.limits.maxCallDepth ≤ w.ctx.depth then .error (.callDepth w.limits.maxCallDepth) w
  else mapFinal (fun w' => w'.withDepth (w'.ctx.depth - 1)) (x (w.withDepth (w.ctx.depth + 1)))

/-- Two runs that agree where a counted call starts agree counted. -/
theorem counted_congr {x y : Run α}
    (h : x (w.withDepth (w.ctx.depth + 1)) = y (w.withDepth (w.ctx.depth + 1))) :
    counted x w = counted y w := by
  unfold counted
  rw [h]

/-- A call of a function is the counted call of the function object. -/
theorem callWith_eq_counted {id : ObjId} {this : Value} {args : List Value}
    (hc : (w.obj id).isCallable = true) :
    callWith (n + 1) (.obj id) this args w = counted (callObject n id this args) w := by
  unfold counted
  split
  · exact callWith_at_limit hc ‹_›
  · exact callWith_counted hc (Nat.not_le.mp ‹_›)

/-- A call of a built-in routine is its counted run. -/
theorem callWith_native {id : ObjId} {name : String} {k : Native} {this : Value}
    {args : List Value} (hk : (w.obj id).kind = .function name (.native k)) :
    callWith (n + 2) (.obj id) this args w = counted (native n k this args) w := by
  rw [callWith_eq_counted (by simp [Obj.isCallable, hk])]
  apply counted_congr
  simp only [callObject]
  rw [get_bind_apply]
  have hk' : ((w.withDepth (w.ctx.depth + 1)).obj id).kind = _ := hk
  rw [hk']

theorem native_eval_str {src : String} {this : Value} {rest : List Value} :
    native (n + 1) .eval this (.str src :: rest) w =
      evalIn n src w.ctx.callerScope w.ctx.callerThis w := by
  simp only [native]
  rfl

theorem native_call {this : Value} {args : List Value} :
    native (n + 1) .call this args w = callWith n this (args.headD .undefined) args.tail w := by
  cases args <;> simp only [native] <;> rfl

/-- `src` run in scope `s` with receiver `this` inside `j + 1` counted calls: what a call that
reaches `eval` through `j` layers of `Function.prototype.call` does. -/
def evalCall (j n : Nat) (src : String) (s : ScopeId) (this : Value) : Run Value :=
  Nat.iterate counted (j + 1) (evalIn n src s this)

end Run

/-- How a call of `f` with receiver `this` and arguments `args` reaches `eval` with source `src`:
`f` is `eval` and `src` its first argument, or `f` is `Function.prototype.call`, which calls its
receiver in turn with the first argument as receiver and the others as arguments. `j` counts the
layers of `call`. -/
inductive ReachesEval (w : World) : Value → Value → List Value → String → Nat → Prop
  | eval {id : ObjId} {name : String} {this : Value} {src : String} {rest : List Value} :
      (w.obj id).kind = .function name (.native .eval) →
      ReachesEval w (.obj id) this (.str src :: rest) src 0
  | call {id : ObjId} {name : String} {this : Value} {args : List Value} {src : String} {j : Nat} :
      (w.obj id).kind = .function name (.native .call) →
      ReachesEval w this (args.headD .undefined) args.tail src j →
      ReachesEval w (.obj id) this args src (j + 1)

namespace Run

variable {n : Nat} {w : World}

/-- A call that reaches `eval` runs the source in the scope and with the receiver recorded in the
world it starts from, inside one counted call per layer: no layer records another caller. The
functions on the way are those of `w`, and the call may start from any world that keeps them. -/
theorem callWith_reaches_eval {f this : Value} {args : List Value} {src : String} {j : Nat}
    (h : ReachesEval w f this args src j) (n : Nat) :
    ∀ w' : World, (∀ id, (w.obj id).isCallable = true → w'.obj id = w.obj id) →
      callWith (n + 3 * (j + 1)) f this args w' =
        evalCall j n src w'.ctx.callerScope w'.ctx.callerThis w' := by
  -- on the layers of `call`; each passes the world on with only the count of calls changed
  induction h with
  | @eval id name this src rest hk =>
    intro w' hobj
    have hk' := (congrArg Obj.kind (hobj id (by simp [Obj.isCallable, hk]))).trans hk
    rw [show n + 3 * (0 + 1) = n + 1 + 2 by omega, callWith_native hk']
    exact counted_congr native_eval_str
  | @call id name this args src j hk _ ih =>
    intro w' hobj
    have hk' := (congrArg Obj.kind (hobj id (by simp [Obj.isCallable, hk]))).trans hk
    rw [show n + 3 * (j + 1 + 1) = n + 3 * (j + 1) + 1 + 2 by omega, callWith_native hk',
      evalCall, Function.iterate_succ_apply']
    apply counted_congr
    rw [native_call]
    exact ih _ hobj

/-! ## The call instructions -/

variable {c : Nat} {fr : Frame}

theorem step_call_eq {m : Nat} :
    step (m + 1) fr (.call c) w =
      (exposeCaller (fr.popN c).2.pop.2 >>= fun _ =>
        callWith m (fr.popN c).2.pop.1 (.obj w.ctx.global) (fr.popN c).1 >>= fun r =>
          pure (.go ((fr.popN c).2.pop.2.push r))) w := by
  simp only [step]
  rfl

theorem step_callMethod_eq {m : Nat} :
    step (m + 1) fr (.callMethod c) w =
      (exposeCaller (fr.popN c).2.pop2.2.2 >>= fun _ =>
        callWith m (fr.popN c).2.pop2.2.1 (fr.popN c).2.pop2.1 (fr.popN c).1 >>= fun r =>
          pure (.go ((fr.popN c).2.pop2.2.2.push r))) w := by
  simp only [step]

theorem step_construct_eq {m : Nat} :
    step (m + 1) fr (.construct c) w =
      (exposeCaller (fr.popN c).2.pop.2 >>= fun _ =>
        construct m (fr.popN c).2.pop.1 (fr.popN c).1 >>= fun r =>
          pure (.go ((fr.popN c).2.pop.2.push r))) w := by
  simp only [step]

variable {src : String} {j : Nat}

/-- A call instruction that reaches `eval` runs the source in its frame's scope with its frame's
receiver. -/
theorem step_call_reaches_eval
    (h : ReachesEval w (fr.popN c).2.pop.1 (.obj w.ctx.global) (fr.popN c).1 src j) :
    step (n + 3 * (j + 1) + 1) fr (.call c) w =
      (exposeCaller (fr.popN c).2.pop.2 >>= fun _ =>
        evalCall j n src fr.scope fr.this >>= fun r =>
          pure (.go ((fr.popN c).2.pop.2.push r))) w := by
  rw [step_call_eq, exposeCaller_bind_apply, exposeCaller_bind_apply]
  refine (bind_apply_congr (callWith_reaches_eval h n
    (w.exposing (fr.popN c).2.pop.2.scope (fr.popN c).2.pop.2.this) fun _ _ => rfl)).trans ?_
  simp only [World.exposing, Frame.pop_scope, Frame.pop_this, Frame.popN_scope, Frame.popN_this]

/-- A method call that reaches `eval` runs the source in its frame's scope with its frame's
receiver, not the receiver of the method. -/
theorem step_callMethod_reaches_eval
    (h : ReachesEval w (fr.popN c).2.pop2.2.1 (fr.popN c).2.pop2.1 (fr.popN c).1 src j) :
    step (n + 3 * (j + 1) + 1) fr (.callMethod c) w =
      (exposeCaller (fr.popN c).2.pop2.2.2 >>= fun _ =>
        evalCall j n src fr.scope fr.this >>= fun r =>
          pure (.go ((fr.popN c).2.pop2.2.2.push r))) w := by
  rw [step_callMethod_eq, exposeCaller_bind_apply, exposeCaller_bind_apply]
  refine (bind_apply_congr (callWith_reaches_eval h n
    (w.exposing (fr.popN c).2.pop2.2.2.scope (fr.popN c).2.pop2.2.2.this) fun _ _ => rfl)).trans ?_
  simp only [World.exposing, Frame.pop2_scope, Frame.pop2_this, Frame.popN_scope, Frame.popN_this]

/-- The object `new F(...)` makes before it calls `F`: it inherits from `F.prototype`, or from
the shared object prototype when that is no object. -/
def newInstance (id : ObjId) : Run ObjId := do
  let w ← get
  let proto ← match ← lift (w.getProp id "prototype") with
    | .obj p => pure p
    | _ => pure w.protos.object
  make (World.allocPlain (some proto))

theorem construct_eq {id : ObjId} {args : List Value} (hc : (w.obj id).isCallable = true) :
    construct (n + 1) (.obj id) args w =
      (newInstance id >>= fun inst =>
        discard (callWith n (.obj id) (.obj inst) args) >>= fun _ => pure (.obj inst)) w := by
  simp only [construct, newInstance, bind_assoc]
  rw [get_bind_apply, get_bind_apply]
  simp only [hc, Bool.not_true, Bool.false_eq_true, if_false]
  cases w.getProp id "prototype" with
  | error f => rfl
  | ok v => cases v <;> rfl

/-- Making the new object changes no object there was and not the running context. -/
theorem newInstance_ok {id inst : ObjId} {w' : World} (h : newInstance id w = .ok inst w') :
    w'.ctx = w.ctx ∧ ∀ i, i < w.objs.size → w'.obj i = w.obj i := by
  -- the object is allocated in `w` itself, whichever prototype it inherits from
  have hmake : ∀ p, (make (World.allocPlain (some p)) : Run ObjId) w = .ok inst w' →
      w'.ctx = w.ctx ∧ ∀ i, i < w.objs.size → w'.obj i = w.obj i := by
    intro p hp
    cases hp
    exact ⟨rfl, fun i hi => World.obj_alloc_old hi⟩
  simp only [newInstance] at h
  rw [get_bind_apply] at h
  cases hp : w.getProp id "prototype" with
  | error f =>
    rw [hp] at h
    cases h
  | ok v =>
    rw [hp] at h
    cases v <;> exact hmake _ h

/-- `new eval(src)` runs `src` in its frame's scope with its frame's receiver, not with the new
object, and gives the new object whatever the source computes. -/
theorem step_construct_evals {id : ObjId} {name : String} {rest : List Value}
    (hf : (fr.popN c).2.pop.1 = .obj id) (hk : (w.obj id).kind = .function name (.native .eval))
    (hargs : (fr.popN c).1 = .str src :: rest) :
    step (n + 5) fr (.construct c) w =
      (exposeCaller (fr.popN c).2.pop.2 >>= fun _ => newInstance id >>= fun inst =>
        evalCall 0 n src fr.scope fr.this >>= fun _ =>
          pure (.go ((fr.popN c).2.pop.2.push (.obj inst)))) w := by
  rw [step_construct_eq, exposeCaller_bind_apply, exposeCaller_bind_apply, hf, hargs]
  have hc : ((w.exposing (fr.popN c).2.pop.2.scope (fr.popN c).2.pop.2.this).obj id).isCallable =
      true := by
    show (w.obj id).isCallable = true
    simp [Obj.isCallable, hk]
  refine (bind_apply_congr (construct_eq hc)).trans ?_
  simp only [bind_assoc]
  -- the new object is no function, so `eval` is still where it was and the caller is kept
  refine bind_apply_congr_ok fun inst w' hnew => ?_
  obtain ⟨hctx, hobj⟩ := newInstance_ok hnew
  have hreach : callWith (n + 3 * (0 + 1)) (.obj id) (.obj inst) (.str src :: rest) w' =
      evalCall 0 n src w'.ctx.callerScope w'.ctx.callerThis w' :=
    callWith_reaches_eval (.eval hk) n w' fun i hi => hobj i (World.lt_size_of_callable hi)
  rw [hctx] at hreach
  simp only [pure_bind]
  rw [discard_bind_apply]
  refine (bind_apply_congr hreach).trans ?_
  simp only [World.exposing, Frame.pop_scope, Frame.pop_this, Frame.popN_scope, Frame.popN_this]

/-- Compiled source has no parameters. -/
theorem compileSource_params {code : Code} (h : compileSource src = .ok code) :
    code.params = [] := by
  simp only [compileSource] at h
  split at h
  · cases h
  · simp only [Program.compile, bind, Except.bind] at h
    split at h
    · cases h
    · cases h
      rfl

end Run

/-- Source text given to `eval` runs as a frame in the scope it is given, not in a new one: the
names it declares land there. -/
theorem evalIn_runs_in_scope {n : Nat} {src : String} {s : ScopeId} {this : Value} {w : World} :
    evalIn (n + 2) src s this w =
      match Run.compileSource src with
      | .ok code => exec n ⟨code, 0, [], s, this, .undefined, w.ctx.global⟩ w
      | .error f => .error f w := by
  simp only [evalIn]
  cases hc : Run.compileSource src with
  | error f => rfl
  | ok code =>
    simp only [Run.lift, invoke, pure_bind, Run.compileSource_params hc]
    rfl

namespace Session

/-- A host's call that reaches `eval` runs the source in the environment's global scope with its
global object as receiver. -/
theorem call_reaches_eval {j n : Nat} {src : String} {s : Session} {e : Env} {f r : Value}
    {as : List Value} (h : ReachesEval s.world f r as src j) :
    (enter e e.scope >>= fun _ => machine (callWith (n + 3 * (j + 1)) f r as)) s =
      (enter e e.scope >>= fun _ => machine (Run.evalCall j n src e.scope (.obj e.global))) s := by
  show machine _ _ = machine _ _
  simp only [machine]
  rw [Run.callWith_reaches_eval h n
    { s.world with ctx := ⟨e.global, s.world.ctx.depth, e.scope, .obj e.global⟩ } fun _ _ => rfl]

end Session

/-- `eval` runs its source in the scope of the frame whose instruction called it and with that
frame's receiver, however many `Function.prototype.call`s stand between, for a call, a method
call and `new`, whatever world the frame runs in; from a host it runs in the environment's
global scope with the global object. There it runs as a frame of that very scope. -/
theorem eval_runs_in_caller_scope :
    (∀ j n src c (fr : Frame) (w : World),
      ReachesEval w (fr.popN c).2.pop.1 (.obj w.ctx.global) (fr.popN c).1 src j →
      step (n + 3 * (j + 1) + 1) fr (.call c) w =
        (Run.exposeCaller (fr.popN c).2.pop.2 >>= fun _ =>
          Run.evalCall j n src fr.scope fr.this >>= fun r =>
            pure (.go ((fr.popN c).2.pop.2.push r))) w) ∧
    (∀ j n src c (fr : Frame) (w : World),
      ReachesEval w (fr.popN c).2.pop2.2.1 (fr.popN c).2.pop2.1 (fr.popN c).1 src j →
      step (n + 3 * (j + 1) + 1) fr (.callMethod c) w =
        (Run.exposeCaller (fr.popN c).2.pop2.2.2 >>= fun _ =>
          Run.evalCall j n src fr.scope fr.this >>= fun r =>
            pure (.go ((fr.popN c).2.pop2.2.2.push r))) w) ∧
    (∀ n src c (fr : Frame) (w : World) id name rest,
      (fr.popN c).2.pop.1 = .obj id → (w.obj id).kind = .function name (.native .eval) →
      (fr.popN c).1 = .str src :: rest →
      step (n + 5) fr (.construct c) w =
        (Run.exposeCaller (fr.popN c).2.pop.2 >>= fun _ => Run.newInstance id >>= fun inst =>
          Run.evalCall 0 n src fr.scope fr.this >>= fun _ =>
            pure (.go ((fr.popN c).2.pop.2.push (.obj inst)))) w) ∧
    (∀ j n src (s : Session) (e : Env) f r as, ReachesEval s.world f r as src j →
      (Session.enter e e.scope >>= fun _ =>
          Session.machine (callWith (n + 3 * (j + 1)) f r as)) s =
        (Session.enter e e.scope >>= fun _ =>
          Session.machine (Run.evalCall j n src e.scope (.obj e.global))) s) ∧
    (∀ n src s this (w : World), evalIn (n + 2) src s this w =
      match Run.compileSource src with
      | .ok code => exec n ⟨code, 0, [], s, this, .undefined, w.ctx.global⟩ w
      | .error f => .error f w) :=
  ⟨fun _ _ _ _ _ _ h => Run.step_call_reaches_eval h,
    fun _ _ _ _ _ _ h => Run.step_callMethod_reaches_eval h,
    fun _ _ _ _ _ _ _ _ hf hk hargs => Run.step_construct_evals hf hk hargs,
    fun _ _ _ _ _ _ _ _ h => Session.call_reaches_eval h,
    fun _ _ _ _ _ => evalIn_runs_in_scope⟩

/-- In the first environment (global object 9, scope 0), `Function.prototype.call` (object 8)
applied to `eval` (object 11) reaches `eval` through one layer, and the host call runs the source
in the global scope with the global object as receiver. -/
theorem eval_through_call_runs_in_global_scope :
    ReachesEval (Session.start Limits.standard).addEnv.world (.obj 8) (.obj 11)
      [.undefined, .str "1;"] "1;" 1 ∧
    (Session.enter ⟨9, 0, none⟩ 0 >>= fun _ =>
        Session.machine (callWith (0 + 3 * (1 + 1)) (.obj 8) (.obj 11) [.undefined, .str "1;"]))
        (Session.start Limits.standard).addEnv =
      (Session.enter ⟨9, 0, none⟩ 0 >>= fun _ =>
        Session.machine (Run.evalCall 1 0 "1;" 0 (.obj 9))) (Session.start Limits.standard).addEnv := by
  have h8 : ((Session.start Limits.standard).addEnv.world.obj 8).kind =
      .function "call" (.native .call) := rfl
  have h11 : ((Session.start Limits.standard).addEnv.world.obj 11).kind =
      .function "eval" (.native .eval) := rfl
  have hr : ReachesEval (Session.start Limits.standard).addEnv.world (.obj 8) (.obj 11)
      [.undefined, .str "1;"] "1;" 1 := .call h8 (.eval h11)
  exact ⟨hr, eval_runs_in_caller_scope.2.2.2.1 1 0 "1;" _ ⟨9, 0, none⟩ _ _ _ hr⟩

end EcmaLite
