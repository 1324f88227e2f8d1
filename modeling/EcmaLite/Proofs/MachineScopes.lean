import EcmaLite.Proofs.ScopeOrder
import EcmaLite.Proofs.EvalScope

/-!
# The machine keeps the scopes ordered

Code runs where the scopes are ordered and the scope of the latest caller, which `eval` runs
in, has been made (`World.ScopesRunning`). Every runner of the machine, started so with a frame
whose scope has been made, ends so, whether it returns or faults (`machine_keeps_scopes`).

The machine makes scopes in two places: a call of a script function makes the callee's scope
inside the one the function closes over, and a named function expression makes a scope of its
own inside the running frame's, which the new closure closes over. Each new scope has the
highest id so far, and the scope it is made inside exists: the closure's by the invariant, the
frame's because every frame runs in a scope made before it. The proof is one induction on the
fuel over the mutual block, as for the machine's other invariants; the steps that only read
the world keep every invariant and are proved so once, for all of them.
-/

namespace EcmaLite

open World Run

/-- The scopes are ordered and the latest caller's scope has been made. -/
structure World.ScopesRunning (w : World) : Prop extends w.ScopesOrdered where
  caller : w.ctx.callerScope < w.scopes.size

/-- What an instruction leaves runs in a scope that has been made. -/
def Next.InScopes : Next → World → Prop
  | .go fr, w => fr.scope < w.scopes.size
  | .finish _, _ => True

@[simp] theorem Frame.push_scope {fr : Frame} {v : Value} : (fr.push v).scope = fr.scope := rfl

@[simp] theorem Frame.goto_scope {fr : Frame} {t : Nat} : (fr.goto t).scope = fr.scope := rfl

variable {w : World}

/-- `w'` runs with its scopes ordered and has every scope of `w`. -/
abbrev World.ScopesGrow (w w' : World) : Prop :=
  EcmaLite.Grows World.ScopesRunning (·.scopes.size) w w'

/-- A change that keeps the scopes ordered, the scopes made, and the latest caller. -/
theorem World.ScopesRunning.grows {w' : World} (hw : w.ScopesRunning) (h : w'.ScopesOrdered)
    (hsize : w.scopes.size ≤ w'.scopes.size)
    (hcaller : w'.ctx.callerScope = w.ctx.callerScope) : w.ScopesGrow w' :=
  ⟨⟨h, hcaller ▸ Nat.lt_of_lt_of_le hw.caller hsize⟩, hsize⟩

theorem World.ScopesRunning.with_depth (hw : w.ScopesRunning) {d : Nat} :
    w.ScopesGrow { w with ctx := { w.ctx with depth := d } } :=
  hw.grows hw.with_ctx (Nat.le_refl _) rfl

namespace Run

/-! ## Steps that only read the world

They end in the world they start from, so they keep whatever holds of it. -/

section Reads

variable {Inv : World → Prop} {μ : World → Nat} {α : Type}

theorem lift_reads (hw : Inv w) {e : Except Fault α} :
    EcmaLite.Keeps Inv μ (lift e) w fun _ _ => True := by
  cases e with
  | error f => exact keeps_throw hw
  | ok a => exact keeps_pure hw trivial

theorem text_reads (hw : Inv w) {v : Value} :
    EcmaLite.Keeps Inv μ (text v) w fun _ _ => True :=
  keeps_pure hw trivial

theorem getProp_reads (hw : Inv w) {base : Value} {key : String} :
    EcmaLite.Keeps Inv μ (Run.getProp base key) w fun _ _ => True := by
  unfold Run.getProp
  refine keeps_get_bind ?_
  cases base with
  | obj id => exact lift_reads hw
  | undefined => exact keeps_throw hw
  | null => exact keeps_throw hw
  | str s =>
    dsimp only
    split
    · exact keeps_pure hw trivial
    · split <;> exact keeps_pure hw trivial
  | bool b => exact keeps_pure hw trivial
  | num x => exact keeps_pure hw trivial

theorem getElem_reads (hw : Inv w) {base key : Value} :
    EcmaLite.Keeps Inv μ (Run.getElem base key) w fun _ _ => True := by
  unfold Run.getElem
  refine keeps_get_bind ?_
  split
  · split
    · split
      · exact keeps_pure hw trivial
      · exact lift_reads hw
    · exact lift_reads hw
  · exact lift_reads hw
  · exact getProp_reads hw

theorem getVar_reads (hw : Inv w) {fr : Frame} {name : String} :
    EcmaLite.Keeps Inv μ (getVar fr name) w fun _ _ => True := by
  unfold getVar
  refine keeps_get_bind ?_
  split
  · exact keeps_pure hw trivial
  · exact lift_reads hw

theorem typeOfVar_reads (hw : Inv w) {fr : Frame} {name : String} :
    EcmaLite.Keeps Inv μ (typeOfVar fr name) w fun _ _ => True := by
  unfold typeOfVar
  refine keeps_get_bind ?_
  split
  · exact keeps_pure hw trivial
  · refine keeps_bind (lift_reads hw) fun b w' hg _ => ?_
    split
    · exact keeps_bind (lift_reads hg.1) fun _ _ hg' _ => keeps_pure hg'.1 trivial
    · exact keeps_pure hg.1 trivial

theorem add_reads (hw : Inv w) {a b : Value} :
    EcmaLite.Keeps Inv μ (add a b) w fun _ _ => True := by
  unfold add
  refine keeps_get_bind ?_
  split
  · exact keeps_pure hw trivial
  · exact keeps_pure hw trivial
  · exact keeps_pure hw trivial
  · split <;> exact keeps_pure hw trivial

theorem instanceOf_reads (hw : Inv w) {a f : Value} :
    EcmaLite.Keeps Inv μ (instanceOf a f) w fun _ _ => True := by
  unfold instanceOf
  refine keeps_get_bind ?_
  split
  · dsimp only
    split
    · exact keeps_throw_bind hw
    · split
      · refine keeps_bind (lift_reads hw) fun p w' hg _ => ?_
        split
        · exact lift_reads hg.1
        · exact keeps_throw hg.1
      · exact keeps_pure hw trivial
  · exact keeps_throw hw

theorem hasIn_reads (hw : Inv w) {key o : Value} :
    EcmaLite.Keeps Inv μ (hasIn key o) w fun _ _ => True := by
  unfold hasIn
  refine keeps_get_bind ?_
  split
  · exact lift_reads hw
  · exact keeps_throw hw

theorem objectPrototype_reads (hw : Inv w) :
    EcmaLite.Keeps Inv μ objectPrototype w fun _ _ => True := by
  unfold objectPrototype
  refine keeps_get_bind (keeps_bind (lift_reads hw) fun ctor w' hg _ => ?_)
  split
  · refine keeps_bind (lift_reads hg.1) fun p w'' hg' _ => ?_
    split <;> exact keeps_pure hg'.1 trivial
  · exact keeps_pure hg.1 trivial

theorem hasOwn_reads (hw : Inv w) {this : Value} {key : String} :
    EcmaLite.Keeps Inv μ (Run.hasOwn this key) w fun _ _ => True := by
  unfold Run.hasOwn
  refine keeps_get_bind ?_
  split <;> exact keeps_pure hw trivial

theorem classTag_reads (hw : Inv w) {this : Value} :
    EcmaLite.Keeps Inv μ (classTag this) w fun _ _ => True := by
  unfold classTag
  refine keeps_get_bind ?_
  split <;> exact keeps_pure hw trivial

end Reads

/-! ## Steps that change the world -/

variable {α : Type} {fr : Frame}

/-- Running `x` from `w` keeps the scopes ordered and the latest caller's made, and makes
scopes only at the end; what it returns satisfies `Q`. -/
abbrev KeepsScopes (x : Run α) (w : World) (Q : α → World → Prop) : Prop :=
  EcmaLite.Keeps World.ScopesRunning (·.scopes.size) x w Q

theorem setProp_scopes (hw : w.ScopesRunning) {base v : Value} {key : String} :
    KeepsScopes (Run.setProp base key v) w fun _ _ => True := by
  unfold Run.setProp
  cases base with
  | obj id => exact keeps_modify (hw.grows hw.put (Nat.le_refl _) rfl)
  | undefined => exact keeps_throw hw
  | null => exact keeps_throw hw
  | _ => exact keeps_pure hw trivial

theorem deleteProp_scopes (hw : w.ScopesRunning) {base : Value} {key : String} :
    KeepsScopes (Run.deleteProp base key) w fun _ _ => True := by
  unfold Run.deleteProp
  cases base with
  | obj id =>
    have hd : w.ScopesGrow (w.update id (·.deleteOwn key)) :=
      hw.grows hw.deleteOwn (Nat.le_refl _) rfl
    exact keeps_modify_bind hd (keeps_pure hd.1 trivial)
  | undefined => exact keeps_throw hw
  | null => exact keeps_throw hw
  | _ => exact keeps_pure hw trivial

/-- An assignment writes the nearest binding or the global object, and makes no scope. -/
theorem setVar_scopes (hw : w.ScopesRunning) {name : String} {v : Value} :
    KeepsScopes (setVar fr name v) w fun _ _ => True := by
  unfold setVar
  refine keeps_modify (hw.grows ?_ ?_ ?_)
  · split
    · exact hw.bind
    · exact hw.put
  · split
    · simp
    · exact Nat.le_refl _
  · split <;> rfl

theorem updateProp_scopes (hw : w.ScopesRunning) {base : Value} {key : String} {op : UpdateOp}
    {isPrefix : Bool} : KeepsScopes (updateProp base key op isPrefix) w fun _ _ => True := by
  unfold updateProp
  refine keeps_bind (getProp_reads hw) fun old w' hg _ => ?_
  exact keeps_bind (setProp_scopes hg.1) fun _ _ hg' _ => keeps_pure hg'.1 trivial

/-- A new closure closes over the frame's scope, or for a named function expression over a new
scope made inside it. -/
theorem makeClosure_scopes (hw : w.ScopesRunning) (hfr : fr.scope < w.scopes.size) {k : Nat} :
    KeepsScopes (makeClosure fr k) w fun _ _ => True := by
  unfold makeClosure
  dsimp only
  split
  · let code := fr.code.funcs[k]?.getD default
    let own := w.newScope (some fr.scope)
    have hown : own.1 < own.2.scopes.size := by simp [own, World.newScope]
    have hs : w.ScopesGrow own.2 :=
      hw.grows (hw.newScope fun o h => by cases h; exact hfr) (by simp [own, World.newScope]) rfl
    let made := own.2.allocFunction code.name (.script code own.1 fr.global)
    have hf : own.2.ScopesGrow made.2 :=
      hs.1.grows (hs.1.allocFunction fun _ _ _ h => by cases h; exact hown) (Nat.le_refl _) rfl
    have hb : made.2.ScopesGrow (made.2.bind own.1 code.name (.obj made.1)) :=
      hf.1.grows hf.1.bind (by simp) rfl
    refine keeps_modifyGet_bind hs (keeps_modifyGet_bind hf (keeps_modify_bind hb ?_))
    exact keeps_pure hb.1 trivial
  · have hf : w.ScopesGrow (w.allocFunction (fr.code.funcs[k]?.getD default).name
        (.script (fr.code.funcs[k]?.getD default) fr.scope fr.global)).2 :=
      hw.grows (hw.allocFunction fun _ _ _ h => by cases h; exact hfr) (Nat.le_refl _) rfl
    exact keeps_pure_bind (keeps_modifyGet_bind hf (keeps_pure hf.1 trivial))

/-- The caller recorded is the running frame, whose scope has been made. -/
theorem exposeCaller_scopes (hw : w.ScopesRunning) (hfr : fr.scope < w.scopes.size) :
    KeepsScopes (exposeCaller fr) w fun _ _ => True :=
  keeps_modify ⟨⟨hw.with_ctx, hfr⟩, Nat.le_refl _⟩

theorem bindParams_scopes (hw : w.ScopesRunning) {s : ScopeId} {ps : List String}
    {args : List Value} : KeepsScopes (bindParams s ps args) w fun _ _ => True := by
  induction ps generalizing args w with
  | nil => exact keeps_pure hw trivial
  | cons p ps ih =>
    have hb : w.ScopesGrow (w.bind s p (args.headD .undefined)) := hw.grows hw.bind (by simp) rfl
    exact keeps_modify_bind hb (ih hb.1)

/-! ## Instructions -/

theorem scopes_go (hw : w.ScopesRunning) (hfr : fr.scope < w.scopes.size) {fr' : Frame}
    (h : fr'.scope = fr.scope) : KeepsScopes (pure (Next.go fr')) w fun nx w' => nx.InScopes w' :=
  keeps_pure hw (show fr'.scope < w.scopes.size from h ▸ hfr)

/-- A step that runs `x` and goes on with a frame of the same scope. -/
theorem scopes_then {β : Type} {x : Run β} {Q : β → World → Prop} (hx : KeepsScopes x w Q)
    (hfr : fr.scope < w.scopes.size) {g : β → Frame} (h : ∀ b, (g b).scope = fr.scope) :
    KeepsScopes (x >>= fun b => pure (Next.go (g b))) w fun nx w' => nx.InScopes w' :=
  keeps_bind hx fun b _ hg _ => scopes_go hg.1 (Nat.lt_of_lt_of_le hfr hg.2) (h b)

/-- One instruction keeps the scopes ordered and its frame's scope made, given that the calls
it makes do. -/
theorem step_keeps_scopes {n : Nat}
    (hcall : ∀ f this args w, w.ScopesRunning →
      KeepsScopes (callWith n f this args) w fun _ _ => True)
    (hcons : ∀ f args w, w.ScopesRunning → KeepsScopes (construct n f args) w fun _ _ => True)
    (hw : w.ScopesRunning) (hfr : fr.scope < w.scopes.size) (i : Instr) :
    KeepsScopes (step (n + 1) fr i) w fun nx w' => nx.InScopes w' := by
  cases i
  all_goals simp only [step, step.arith, step.test]
  case add => exact scopes_then (add_reads hw) hfr fun _ => by simp
  case instanceOf => exact scopes_then (instanceOf_reads hw) hfr fun _ => by simp
  case hasIn => exact scopes_then (hasIn_reads hw) hfr fun _ => by simp
  case typeOf => exact keeps_get_bind (scopes_go hw hfr (by simp))
  case typeOfVar k => exact scopes_then (typeOfVar_reads hw) hfr fun _ => rfl
  case getVar k => exact scopes_then (getVar_reads hw) hfr fun _ => rfl
  case setVar k => exact scopes_then (setVar_scopes hw) hfr fun _ => rfl
  case declareVar k =>
    have hd : w.ScopesGrow (w.declare fr.scope (fr.name k)) := by
      unfold World.declare
      split
      · exact Grows.refl hw
      · exact hw.grows hw.bind (by simp) rfl
    exact keeps_modify_bind hd (scopes_go hd.1 (Nat.lt_of_lt_of_le hfr hd.2) rfl)
  case bindFunction k =>
    have hb : w.ScopesGrow (w.bind fr.pop.2.scope (fr.pop.2.name k) fr.pop.1) :=
      hw.grows hw.bind (by simp) rfl
    exact keeps_modify_bind hb (scopes_go hb.1 (Nat.lt_of_lt_of_le hfr hb.2) (by simp))
  case jumpIfFalse t =>
    refine scopes_go hw hfr ?_
    split <;> simp
  case jumpIfTrue t =>
    refine scopes_go hw hfr ?_
    split <;> simp
  case getProp k => exact scopes_then (getProp_reads hw) hfr fun _ => by simp
  case setProp k => exact scopes_then (setProp_scopes hw) hfr fun _ => by simp
  case getElem => exact scopes_then (getElem_reads hw) hfr fun _ => by simp
  case setElem => exact keeps_get_bind (scopes_then (setProp_scopes hw) hfr fun _ => by simp)
  case deleteProp k => exact scopes_then (deleteProp_scopes hw) hfr fun _ => by simp
  case deleteElem => exact keeps_get_bind (scopes_then (deleteProp_scopes hw) hfr fun _ => by simp)
  case newObject =>
    have hn := hw.grows hw.allocObject (Nat.le_refl _) rfl
    exact keeps_modifyGet_bind hn (scopes_go hn.1 (Nat.lt_of_lt_of_le hfr hn.2) rfl)
  case initProp k =>
    split
    · rename_i id _
      have hp : w.ScopesGrow (w.put id (fr.pop2.2.2.name k) fr.pop2.2.1) :=
        hw.grows hw.put (Nat.le_refl _) rfl
      exact keeps_modify_bind hp (scopes_go hp.1 (Nat.lt_of_lt_of_le hfr hp.2) (by simp))
    · exact scopes_go hw hfr (by simp)
  case newArray c =>
    have ha : w.ScopesGrow (w.allocArray (fr.popN c).1).2 :=
      hw.grows hw.allocArray (Nat.le_refl _) rfl
    exact keeps_modifyGet_bind ha (scopes_go ha.1 (Nat.lt_of_lt_of_le hfr ha.2) (by simp))
  case makeClosure k => exact scopes_then (makeClosure_scopes hw hfr) hfr fun _ => rfl
  case call c =>
    refine keeps_bind (exposeCaller_scopes hw (by simpa using hfr)) fun _ w' hg _ => ?_
    exact keeps_get_bind (scopes_then (hcall _ _ _ w' hg.1) (Nat.lt_of_lt_of_le hfr hg.2)
      fun _ => by simp)
  case callMethod c =>
    refine keeps_bind (exposeCaller_scopes hw (by simpa using hfr)) fun _ w' hg _ => ?_
    exact scopes_then (hcall _ _ _ w' hg.1) (Nat.lt_of_lt_of_le hfr hg.2) fun _ => by simp
  case construct c =>
    refine keeps_bind (exposeCaller_scopes hw (by simpa using hfr)) fun _ w' hg _ => ?_
    exact scopes_then (hcons _ _ w' hg.1) (Nat.lt_of_lt_of_le hfr hg.2) fun _ => by simp
  case updateVar k op isPrefix =>
    refine keeps_bind (getVar_reads hw) fun _ w' hg _ => ?_
    exact scopes_then (setVar_scopes hg.1) (Nat.lt_of_lt_of_le hfr hg.2) fun _ => rfl
  case updateProp k op isPrefix => exact scopes_then (updateProp_scopes hw) hfr fun _ => by simp
  case updateElem op isPrefix =>
    exact keeps_get_bind (scopes_then (updateProp_scopes hw) hfr fun _ => by simp)
  case ret => exact keeps_pure hw trivial
  case halt => exact keeps_pure hw trivial
  all_goals exact scopes_go hw hfr (by simp)

/-! ## The runners -/

/-- What the runners keep at fuel `n`: from a world where code runs with its scopes ordered,
each run keeps them so; a frame, and the scope code is invoked in, must have been made. -/
structure MachineScopes (n : Nat) : Prop where
  exec : ∀ fr w, w.ScopesRunning → fr.scope < w.scopes.size →
    KeepsScopes (exec n fr) w fun _ _ => True
  step : ∀ fr i w, w.ScopesRunning → fr.scope < w.scopes.size →
    KeepsScopes (step n fr i) w fun nx w' => nx.InScopes w'
  callWith : ∀ f this args w, w.ScopesRunning →
    KeepsScopes (callWith n f this args) w fun _ _ => True
  callObject : ∀ id this args w, w.ScopesRunning →
    KeepsScopes (callObject n id this args) w fun _ _ => True
  invoke : ∀ code global s this args w, w.ScopesRunning → s < w.scopes.size →
    KeepsScopes (invoke n code global s this args) w fun _ _ => True
  construct : ∀ f args w, w.ScopesRunning → KeepsScopes (construct n f args) w fun _ _ => True
  evalIn : ∀ src s this w, w.ScopesRunning → s < w.scopes.size →
    KeepsScopes (evalIn n src s this) w fun _ _ => True
  native : ∀ k this args w, w.ScopesRunning →
    KeepsScopes (native n k this args) w fun _ _ => True

theorem machineScopes_zero : MachineScopes 0 where
  exec _ w hw _ := by
    simp only [exec]
    exact keeps_throw hw
  step _ _ _ hw _ := by
    simp only [step]
    exact keeps_throw hw
  callWith _ _ _ _ hw := by
    simp only [callWith]
    exact keeps_throw hw
  callObject _ _ _ _ hw := by
    simp only [callObject]
    exact keeps_throw hw
  invoke _ _ _ _ _ _ hw _ := by
    simp only [invoke]
    exact keeps_throw hw
  construct _ _ _ hw := by
    simp only [construct]
    exact keeps_throw hw
  evalIn _ _ _ _ hw _ := by
    simp only [evalIn]
    exact keeps_throw hw
  native _ _ _ _ hw := by
    simp only [native]
    exact keeps_throw hw

variable {n : Nat}

/-- A frame runs instruction after instruction, each kept by `step`. -/
theorem exec_keeps_scopes_succ (ih : MachineScopes n) (hw : w.ScopesRunning)
    (hfr : fr.scope < w.scopes.size) : KeepsScopes (exec (n + 1) fr) w fun _ _ => True := by
  show Ends World.ScopesRunning (·.scopes.size) w _ (exec (n + 1) fr w)
  simp only [exec]
  split
  · exact ⟨Grows.refl hw, trivial⟩
  · rename_i i _
    have hs : Ends World.ScopesRunning (·.scopes.size) w (fun nx w' => nx.InScopes w')
        (step n { fr with ip := fr.ip + 1 } i w) :=
      ih.step { fr with ip := fr.ip + 1 } i w hw hfr
    cases hr : step n { fr with ip := fr.ip + 1 } i w with
    | ok nx w' =>
      rw [hr] at hs
      cases nx with
      | go fr' => exact (ih.exec fr' w' hs.1.1 hs.2).of_grows hs.1
      | finish v => exact ⟨hs.1, trivial⟩
    | error e w' =>
      rw [hr] at hs
      exact hs

theorem callWith_keeps_scopes_succ (ih : MachineScopes n) {f this : Value} {args : List Value}
    (hw : w.ScopesRunning) : KeepsScopes (callWith (n + 1) f this args) w fun _ _ => True := by
  simp only [callWith]
  refine keeps_get_bind ?_
  split
  · split
    · exact keeps_throw_bind hw
    · split
      · exact keeps_throw_bind hw
      · have hin := hw.with_depth (d := w.ctx.depth + 1)
        refine keeps_modify_bind hin (keeps_bind (keeps_tryCatch
          (ih.callObject _ _ _ _ hin.1) fun e w' hg => ?_) fun r w' hg _ => ?_)
        · exact keeps_modify_bind hg.1.with_depth (keeps_throw hg.1.with_depth.1)
        · exact keeps_modify_bind hg.1.with_depth (keeps_pure hg.1.with_depth.1 trivial)
  · exact keeps_throw hw

theorem invoke_keeps_scopes_succ (ih : MachineScopes n) {code : Code} {global : ObjId}
    {s : ScopeId} {this : Value} {args : List Value} (hw : w.ScopesRunning)
    (hs : s < w.scopes.size) :
    KeepsScopes (invoke (n + 1) code global s this args) w fun _ _ => True := by
  simp only [invoke]
  refine keeps_bind (bindParams_scopes hw) fun _ w' hg _ => ?_
  exact ih.exec _ w' hg.1 (Nat.lt_of_lt_of_le hs hg.2)

theorem callObject_keeps_scopes_succ (ih : MachineScopes n) {id : ObjId} {this : Value}
    {args : List Value} (hw : w.ScopesRunning) :
    KeepsScopes (callObject (n + 1) id this args) w fun _ _ => True := by
  simp only [callObject]
  refine keeps_get_bind ?_
  split
  · exact ih.native _ _ _ w hw
  · -- the callee's scope is made inside the one the function closes over
    rename_i name code scope global hk
    have hs : w.ScopesGrow (w.newScope (some scope)).2 :=
      hw.grows (hw.newScope fun o h => by cases h; exact hw.closures id name code scope global hk)
        (by simp [World.newScope]) rfl
    exact keeps_modifyGet_bind hs
      (ih.invoke _ _ _ _ _ _ hs.1 (by simp [World.newScope]))
  · exact keeps_get_bind (keeps_throw hw)

theorem construct_keeps_scopes_succ (ih : MachineScopes n) {f : Value} {args : List Value}
    (hw : w.ScopesRunning) : KeepsScopes (construct (n + 1) f args) w fun _ _ => True := by
  simp only [construct]
  refine keeps_get_bind ?_
  split
  · rename_i fid
    split
    · exact keeps_throw_bind hw
    · have htail : ∀ p w', w'.ScopesRunning →
          KeepsScopes (pure p >>= fun proto => make (allocPlain (some proto)) >>= fun inst =>
            discard (callWith n (.obj fid) (.obj inst) args) >>= fun _ => pure (Value.obj inst))
            w' fun _ _ => True := by
        intro p w' hw'
        have ha : w'.ScopesGrow (w'.allocPlain (some p)).2 :=
          hw'.grows hw'.allocPlain (Nat.le_refl _) rfl
        refine keeps_pure_bind (keeps_modifyGet_bind ha ?_)
        refine keeps_bind (keeps_map (R := fun _ _ => True) (ih.callWith _ _ _ _ ha.1)
          fun _ _ _ _ => trivial) fun _ w'' hg' _ => ?_
        exact keeps_pure hg'.1 trivial
      refine keeps_bind (lift_reads hw) fun v w' hg _ => ?_
      split
      · exact htail _ w' hg.1
      · exact htail _ w' hg.1
  · exact keeps_throw hw

theorem evalIn_keeps_scopes_succ (ih : MachineScopes n) {src : String} {s : ScopeId}
    {this : Value} (hw : w.ScopesRunning) (hs : s < w.scopes.size) :
    KeepsScopes (evalIn (n + 1) src s this) w fun _ _ => True := by
  simp only [evalIn]
  refine keeps_bind (lift_reads hw) fun code w' hg _ => ?_
  exact keeps_get_bind (ih.invoke _ _ _ _ _ w' hg.1 (Nat.lt_of_lt_of_le hs hg.2))

theorem native_keeps_scopes_succ (ih : MachineScopes n) {k : Native} {this : Value}
    {args : List Value} (hw : w.ScopesRunning) :
    KeepsScopes (native (n + 1) k this args) w fun _ _ => True := by
  cases k with
  | eval =>
    unfold native
    dsimp only
    split
    · -- `eval` runs in the latest caller's scope, which has been made
      exact keeps_get_bind (ih.evalIn _ _ _ w hw hw.caller)
    · exact keeps_pure hw trivial
    · exact keeps_pure hw trivial
  | print =>
    simp only [native]
    refine keeps_bind (keeps_forIn hw fun a _ _ w' hw' => ?_) fun _ w' hg _ => ?_
    · refine keeps_bind (text_reads hw') fun t w'' hg _ => ?_
      have hp : w''.ScopesGrow { w'' with printed := w''.printed.push (t ++ "\n") } :=
        hg.1.grows hg.1.with_printed (Nat.le_refl _) rfl
      exact keeps_modify_bind hp (keeps_pure hp.1 trivial)
    · exact keeps_pure hg.1 trivial
  | objectCtor =>
    unfold native
    dsimp only
    split
    · exact keeps_pure hw trivial
    · refine keeps_bind (objectPrototype_reads hw) fun p w' hg _ => keeps_get_bind ?_
      have ha : w'.ScopesGrow (w'.allocPlain (some p)).2 :=
        hg.1.grows hg.1.allocPlain (Nat.le_refl _) rfl
      have hnew : KeepsScopes (make (allocPlain (some p)) >>= fun inst => pure (Value.obj inst))
          w' fun _ _ => True :=
        keeps_modifyGet_bind ha (keeps_pure ha.1 trivial)
      split
      · split
        · exact keeps_pure hg.1 trivial
        · exact hnew
      · exact hnew
  | hasOwnProperty =>
    simp only [native]
    refine keeps_bind (text_reads hw) fun _ w' hg _ => ?_
    exact keeps_bind (hasOwn_reads hg.1) fun _ _ hg' _ => keeps_pure hg'.1 trivial
  | toString =>
    simp only [native]
    exact keeps_bind (classTag_reads hw) fun _ _ hg _ => keeps_pure hg.1 trivial
  | call =>
    unfold native
    dsimp only
    split
    · exact ih.callWith _ _ _ w hw
    · exact ih.callWith _ _ _ w hw

/-- Every runner of the machine, at every fuel, keeps the scopes ordered and the latest
caller's scope made. -/
theorem machine_keeps_scopes (n : Nat) : MachineScopes n := by
  induction n with
  | zero => exact machineScopes_zero
  | succ n ih =>
    exact {
      exec := fun _ _ hw hfr => exec_keeps_scopes_succ ih hw hfr
      step := fun _ i _ hw hfr => step_keeps_scopes ih.callWith ih.construct hw hfr i
      callWith := fun _ _ _ _ hw => callWith_keeps_scopes_succ ih hw
      callObject := fun _ _ _ _ hw => callObject_keeps_scopes_succ ih hw
      invoke := fun _ _ _ _ _ _ hw hs => invoke_keeps_scopes_succ ih hw hs
      construct := fun _ _ _ hw => construct_keeps_scopes_succ ih hw
      evalIn := fun _ _ _ _ hw hs => evalIn_keeps_scopes_succ ih hw hs
      native := fun _ _ _ _ hw => native_keeps_scopes_succ ih hw }

end Run

end EcmaLite
