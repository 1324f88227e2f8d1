import EcmaLite.Proofs.Sealed

/-!
# The machine keeps the shared prototypes out of reach

Every runner of the machine, started in a world where code runs sealed (`World.Running`) with
inputs that are no shared prototypes, ends in such a world, whether it returns or faults, and
returns no shared prototype (`machine_seals`). Every frame it runs holds no shared prototype on
its operand stack, as its receiver or as its completion value, and runs under a global object
that is none either (`Frame.Unshared`), so no instruction can write to a shared prototype or
hand one to code.

The proof follows the one that the machine keeps the world sound: one induction on the fuel
over the mutual block, each step taken apart instruction by instruction.
-/

namespace EcmaLite

open World Run

variable {P : Protos} {O : ObjId → Obj}

/-- The values a frame holds are no shared prototypes, and its global object is none either. -/
structure Frame.Unshared (P : Protos) (fr : Frame) : Prop where
  stack : ∀ v ∈ fr.stack, v.NotShared P
  this : fr.this.NotShared P
  completion : fr.completion.NotShared P
  global : ¬ P.Has fr.global

/-- What an instruction leaves holds no shared prototype. -/
def Next.Unshared (P : Protos) : Next → Prop
  | .go fr => fr.Unshared P
  | .finish v => v.NotShared P

namespace Frame

variable {fr : Frame} {v : Value}

theorem Unshared.push (h : fr.Unshared P) (hv : v.NotShared P) : (fr.push v).Unshared P where
  stack x hx := by
    rcases List.mem_cons.mp hx with rfl | hx
    · exact hv
    · exact h.stack x hx
  this := h.this
  completion := h.completion
  global := h.global

theorem Unshared.pop_fst (h : fr.Unshared P) : fr.pop.1.NotShared P := by
  unfold pop
  split
  · exact h.stack _ (by simp_all)
  · trivial

theorem Unshared.pop_snd (h : fr.Unshared P) : fr.pop.2.Unshared P := by
  unfold pop
  split
  · rename_i v rest hs
    exact ⟨fun x hx => h.stack x (by rw [hs]; exact List.mem_cons_of_mem v hx), h.this,
      h.completion, h.global⟩
  · exact h

theorem Unshared.pop2_fst (h : fr.Unshared P) : fr.pop2.1.NotShared P := h.pop_snd.pop_fst

theorem Unshared.pop2_snd_fst (h : fr.Unshared P) : fr.pop2.2.1.NotShared P := h.pop_fst

theorem Unshared.pop2_snd_snd (h : fr.Unshared P) : fr.pop2.2.2.Unshared P := h.pop_snd.pop_snd

theorem Unshared.popN_fst (h : fr.Unshared P) {k : Nat} : ∀ x ∈ (fr.popN k).1, x.NotShared P :=
  fun x hx => h.stack x (List.mem_of_mem_take (List.mem_reverse.mp hx))

theorem Unshared.popN_snd (h : fr.Unshared P) {k : Nat} : (fr.popN k).2.Unshared P :=
  ⟨fun x hx => h.stack x (List.mem_of_mem_drop hx), h.this, h.completion, h.global⟩

theorem Unshared.peek (h : fr.Unshared P) : fr.peek.NotShared P := by
  unfold Frame.peek
  cases hs : fr.stack with
  | nil => trivial
  | cons x rest => exact h.stack x (by rw [hs]; exact List.mem_cons_self)

theorem Unshared.goto (h : fr.Unshared P) {t : Nat} : (fr.goto t).Unshared P :=
  ⟨h.stack, h.this, h.completion, h.global⟩

theorem Unshared.with_ip (h : fr.Unshared P) {ip : Nat} : { fr with ip := ip }.Unshared P :=
  ⟨h.stack, h.this, h.completion, h.global⟩

theorem Unshared.with_completion (h : fr.Unshared P) (hv : v.NotShared P) :
    { fr with completion := v }.Unshared P :=
  ⟨h.stack, h.this, hv, h.global⟩

theorem const_notShared {k : Nat} : (fr.const k).NotShared P := by
  unfold Frame.const
  split <;> trivial

end Frame

/-- Counting calls changes neither what the world holds nor the running global object. -/
theorem World.Running.with_depth {w : World} (hw : w.Running P O) {d : Nat} :
    { w with ctx := { w.ctx with depth := d } }.Running P O :=
  hw.of_sealed (hw.with_ctx hw.callerThis) rfl

namespace Run

variable {w : World} {fr : Frame}

theorem seals_go (hw : w.Running P O) (h : fr.Unshared P) :
    Seals P O (pure (Next.go fr)) w fun nx _ => nx.Unshared P :=
  keeps_pure hw h

theorem seals_push_bind {x : Run Value} (hx : Seals P O x w fun v _ => v.NotShared P)
    (h : fr.Unshared P) :
    Seals P O (x >>= fun v => pure (Next.go (fr.push v))) w fun nx _ => nx.Unshared P :=
  keeps_bind hx fun _ _ hg hv => seals_go hg.1 (h.push hv)

theorem seals_after {α : Type} {x : Run α} {Q : α → World → Prop} (hx : Seals P O x w Q)
    (h : fr.Unshared P) :
    Seals P O (x >>= fun _ => pure (Next.go fr)) w fun nx _ => nx.Unshared P :=
  keeps_bind hx fun _ _ hg _ => seals_go hg.1 h

/-- One instruction keeps code running sealed and its frame holding no shared prototype, given
that the calls it makes do. -/
theorem step_seals {n : Nat}
    (hcall : ∀ f this args w, w.Running P O → this.NotShared P →
      (∀ v ∈ args, v.NotShared P) → Seals P O (callWith n f this args) w fun v _ => v.NotShared P)
    (hcons : ∀ f args w, w.Running P O → (∀ v ∈ args, v.NotShared P) →
      Seals P O (construct n f args) w fun v _ => v.NotShared P)
    (hw : w.Running P O) (hfr : fr.Unshared P) (i : Instr) :
    Seals P O (step (n + 1) fr i) w fun nx _ => nx.Unshared P := by
  cases i
  all_goals simp only [step, step.arith, step.test]
  case pushConst k => exact seals_go hw (hfr.push Frame.const_notShared)
  case pushUndefined => exact seals_go hw (hfr.push trivial)
  case pushNull => exact seals_go hw (hfr.push trivial)
  case pushTrue => exact seals_go hw (hfr.push trivial)
  case pushFalse => exact seals_go hw (hfr.push trivial)
  case add => exact seals_push_bind (add_seals hw) hfr.pop2_snd_snd
  case sub => exact seals_go hw (hfr.pop2_snd_snd.push trivial)
  case mul => exact seals_go hw (hfr.pop2_snd_snd.push trivial)
  case div => exact seals_go hw (hfr.pop2_snd_snd.push trivial)
  case mod => exact seals_go hw (hfr.pop2_snd_snd.push trivial)
  case negate => exact seals_go hw (hfr.pop_snd.push trivial)
  case toNumber => exact seals_go hw (hfr.pop_snd.push trivial)
  case strictEq => exact seals_go hw (hfr.pop2_snd_snd.push trivial)
  case strictNe => exact seals_go hw (hfr.pop2_snd_snd.push trivial)
  case looseEq => exact seals_go hw (hfr.pop2_snd_snd.push trivial)
  case looseNe => exact seals_go hw (hfr.pop2_snd_snd.push trivial)
  case lt => exact seals_go hw (hfr.pop2_snd_snd.push trivial)
  case le => exact seals_go hw (hfr.pop2_snd_snd.push trivial)
  case gt => exact seals_go hw (hfr.pop2_snd_snd.push trivial)
  case ge => exact seals_go hw (hfr.pop2_snd_snd.push trivial)
  case instanceOf =>
    exact keeps_bind (instanceOf_seals hw) fun _ _ hg _ =>
      seals_go hg.1 (hfr.pop2_snd_snd.push trivial)
  case hasIn =>
    exact keeps_bind (hasIn_seals hw) fun _ _ hg _ => seals_go hg.1 (hfr.pop2_snd_snd.push trivial)
  case not => exact seals_go hw (hfr.pop_snd.push trivial)
  case typeOf => exact keeps_get_bind (seals_go hw (hfr.pop_snd.push trivial))
  case typeOfVar k =>
    exact keeps_bind (typeOfVar_seals hw) fun _ _ hg _ => seals_go hg.1 (hfr.push trivial)
  case void => exact seals_go hw (hfr.pop_snd.push trivial)
  case getVar k => exact seals_push_bind (getVar_seals hw) hfr
  case setVar k => exact seals_after (setVar_seals hw hfr.global hfr.peek) hfr
  case declareVar k =>
    have hd : (w.declare fr.scope (fr.name k)).Running P O :=
      hw.of_sealed hw.declare (by unfold World.declare; split <;> rfl)
    exact keeps_modify_bind (Running.grows hd) (seals_go hd hfr)
  case bindFunction k =>
    have hb : (w.bind fr.pop.2.scope (fr.pop.2.name k) fr.pop.1).Running P O :=
      hw.of_sealed (hw.bind hfr.pop_fst) rfl
    exact keeps_modify_bind (Running.grows hb) (seals_go hb hfr.pop_snd)
  case jump t => exact seals_go hw hfr.goto
  case jumpIfFalse t =>
    refine seals_go hw ?_
    split
    · exact hfr.pop_snd
    · exact hfr.pop_snd.goto
  case jumpIfTrue t =>
    refine seals_go hw ?_
    split
    · exact hfr.pop_snd.goto
    · exact hfr.pop_snd
  case pop => exact seals_go hw hfr.pop_snd
  case dup => exact seals_go hw (hfr.push hfr.peek)
  case dup2 =>
    exact seals_go hw ((((hfr.pop2_snd_snd.push hfr.pop2_fst).push hfr.pop2_snd_fst).push
      hfr.pop2_fst).push hfr.pop2_snd_fst)
  case getProp k => exact seals_push_bind (getProp_seals hw) hfr.pop_snd
  case setProp k =>
    exact seals_after (setProp_seals hw hfr.pop2_fst hfr.pop2_snd_fst)
      (hfr.pop2_snd_snd.push hfr.pop2_snd_fst)
  case getElem => exact seals_push_bind (getElem_seals hw) hfr.pop2_snd_snd
  case setElem =>
    exact keeps_get_bind (seals_after (setProp_seals hw hfr.pop_snd.pop2_fst hfr.pop_fst)
      (hfr.pop_snd.pop2_snd_snd.push hfr.pop_fst))
  case deleteProp k =>
    exact keeps_bind (deleteProp_seals hw hfr.pop_fst) fun _ _ hg _ =>
      seals_go hg.1 (hfr.pop_snd.push trivial)
  case deleteElem =>
    exact keeps_get_bind (keeps_bind (deleteProp_seals hw hfr.pop2_fst) fun _ _ hg _ =>
      seals_go hg.1 (hfr.pop2_snd_snd.push trivial))
  case newObject =>
    -- the new object is fresh, so no shared prototype
    have hn : w.allocObject.2.Running P O := hw.of_sealed hw.allocObject rfl
    exact keeps_modifyGet_bind (Running.grows hn) (seals_go hn (hfr.push hw.fresh))
  case initProp k =>
    split
    · rename_i id htarget
      have htarget' : ¬ P.Has id := by
        have := hfr.pop2_fst
        rw [htarget] at this
        exact this
      have hp : (w.put id (fr.pop2.2.2.name k) fr.pop2.2.1).Running P O :=
        hw.of_sealed (hw.put htarget' hfr.pop2_snd_fst) rfl
      exact keeps_modify_bind (Running.grows hp) (seals_go hp (hfr.pop2_snd_snd.push hfr.pop2_fst))
    · exact seals_go hw hfr.pop2_snd_snd
  case newArray c =>
    have ha : (w.allocArray (fr.popN c).1).2.Running P O :=
      hw.of_sealed (hw.allocArray hfr.popN_fst) rfl
    exact keeps_modifyGet_bind (Running.grows ha) (seals_go ha (hfr.popN_snd.push hw.fresh))
  case makeClosure k => exact seals_push_bind (makeClosure_seals hw hfr.global) hfr
  case call c =>
    refine keeps_bind (exposeCaller_seals hw hfr.popN_snd.pop_snd.this) fun _ w' hg _ => ?_
    refine keeps_get_bind (seals_push_bind (hcall _ _ _ w' hg.1 hg.1.global hfr.popN_fst) ?_)
    exact hfr.popN_snd.pop_snd
  case callMethod c =>
    refine keeps_bind (exposeCaller_seals hw hfr.popN_snd.pop2_snd_snd.this) fun _ w' hg _ => ?_
    exact seals_push_bind (hcall _ _ _ w' hg.1 hfr.popN_snd.pop2_fst hfr.popN_fst)
      hfr.popN_snd.pop2_snd_snd
  case construct c =>
    refine keeps_bind (exposeCaller_seals hw hfr.popN_snd.pop_snd.this) fun _ w' hg _ => ?_
    exact seals_push_bind (hcons _ _ w' hg.1 hfr.popN_fst) hfr.popN_snd.pop_snd
  case this => exact seals_go hw (hfr.push hfr.this)
  case updateVar k op isPrefix =>
    refine keeps_bind (getVar_seals hw) fun _ w' hg _ => ?_
    exact keeps_bind (setVar_seals hg.1 hfr.global trivial) fun _ _ hg' _ =>
      seals_go hg'.1 (hfr.push trivial)
  case updateProp k op isPrefix => exact seals_push_bind (updateProp_seals hw hfr.pop_fst) hfr.pop_snd
  case updateElem op isPrefix =>
    exact keeps_get_bind (seals_push_bind (updateProp_seals hw hfr.pop2_fst) hfr.pop2_snd_snd)
  case setCompletion => exact seals_go hw (hfr.pop_snd.with_completion hfr.pop_fst)
  case ret => exact keeps_pure hw hfr.pop_fst
  case halt => exact keeps_pure hw hfr.completion

variable (P O) in
/-- What the runners keep at fuel `n`: from a world where code runs sealed, with inputs that are
no shared prototypes, each run keeps code running sealed and returns no shared prototype. -/
structure MachineSeals (n : Nat) : Prop where
  exec : ∀ fr w, w.Running P O → fr.Unshared P →
    Seals P O (exec n fr) w fun v _ => v.NotShared P
  step : ∀ fr i w, w.Running P O → fr.Unshared P →
    Seals P O (step n fr i) w fun nx _ => nx.Unshared P
  callWith : ∀ f this args w, w.Running P O → this.NotShared P → (∀ v ∈ args, v.NotShared P) →
    Seals P O (callWith n f this args) w fun v _ => v.NotShared P
  callObject : ∀ id this args w, w.Running P O → this.NotShared P →
    (∀ v ∈ args, v.NotShared P) → Seals P O (callObject n id this args) w fun v _ => v.NotShared P
  invoke : ∀ code global s this args w, w.Running P O → ¬ P.Has global → this.NotShared P →
    (∀ v ∈ args, v.NotShared P) →
    Seals P O (invoke n code global s this args) w fun v _ => v.NotShared P
  construct : ∀ f args w, w.Running P O → (∀ v ∈ args, v.NotShared P) →
    Seals P O (construct n f args) w fun v _ => v.NotShared P
  evalIn : ∀ src s this w, w.Running P O → this.NotShared P →
    Seals P O (evalIn n src s this) w fun v _ => v.NotShared P
  native : ∀ k this args w, w.Running P O → this.NotShared P → (∀ v ∈ args, v.NotShared P) →
    Seals P O (native n k this args) w fun v _ => v.NotShared P

theorem machineSeals_zero : MachineSeals P O 0 where
  exec _ w hw _ := by
    simp only [exec]
    exact keeps_throw hw
  step _ _ _ hw _ := by
    simp only [step]
    exact keeps_throw hw
  callWith _ _ _ _ hw _ _ := by
    simp only [callWith]
    exact keeps_throw hw
  callObject _ _ _ _ hw _ _ := by
    simp only [callObject]
    exact keeps_throw hw
  invoke _ _ _ _ _ _ hw _ _ _ := by
    simp only [invoke]
    exact keeps_throw hw
  construct _ _ _ hw _ := by
    simp only [construct]
    exact keeps_throw hw
  evalIn _ _ _ _ hw _ := by
    simp only [evalIn]
    exact keeps_throw hw
  native _ _ _ _ hw _ _ := by
    simp only [native]
    exact keeps_throw hw

variable {n : Nat}

/-- A frame runs instruction after instruction, each kept by `step`. -/
theorem exec_seals_succ (ih : MachineSeals P O n) (hw : w.Running P O) (hfr : fr.Unshared P) :
    Seals P O (exec (n + 1) fr) w fun v _ => v.NotShared P := by
  show Ends (World.Running P O) (fun _ => 0) w _ (exec (n + 1) fr w)
  simp only [exec]
  split
  · exact ⟨Running.grows hw, hfr.completion⟩
  · rename_i i _
    have hs : Ends (World.Running P O) (fun _ => 0) w (fun nx _ => nx.Unshared P)
        (step n { fr with ip := fr.ip + 1 } i w) :=
      ih.step { fr with ip := fr.ip + 1 } i w hw hfr.with_ip
    cases hr : step n { fr with ip := fr.ip + 1 } i w with
    | ok nx w' =>
      rw [hr] at hs
      cases nx with
      | go fr' => exact (ih.exec fr' w' hs.1.1 hs.2).of_grows hs.1
      | finish v => exact hs
    | error e w' =>
      rw [hr] at hs
      exact hs

theorem callWith_seals_succ (ih : MachineSeals P O n) {f this : Value} {args : List Value}
    (hw : w.Running P O) (hthis : this.NotShared P) (hargs : ∀ v ∈ args, v.NotShared P) :
    Seals P O (callWith (n + 1) f this args) w fun v _ => v.NotShared P := by
  simp only [callWith]
  refine keeps_get_bind ?_
  split
  · split
    · exact keeps_throw_bind hw
    · split
      · exact keeps_throw_bind hw
      · have hin := hw.with_depth (d := w.ctx.depth + 1)
        refine keeps_modify_bind (Running.grows hin) (keeps_bind (keeps_tryCatch
          (ih.callObject _ _ _ _ hin hthis hargs) fun e w' hg => ?_) fun r w' hg hr => ?_)
        · exact keeps_modify_bind (Running.grows hg.1.with_depth) (keeps_throw hg.1.with_depth)
        · exact keeps_modify_bind (Running.grows hg.1.with_depth)
            (keeps_pure hg.1.with_depth hr)
  · exact keeps_throw hw

theorem invoke_seals_succ (ih : MachineSeals P O n) {code : Code} {global : ObjId} {s : ScopeId}
    {this : Value} {args : List Value} (hw : w.Running P O) (hg : ¬ P.Has global)
    (hthis : this.NotShared P) (hargs : ∀ v ∈ args, v.NotShared P) :
    Seals P O (invoke (n + 1) code global s this args) w fun v _ => v.NotShared P := by
  simp only [invoke]
  refine keeps_bind (bindParams_seals hw hargs) fun _ w' hg' _ => ?_
  exact ih.exec _ w' hg'.1 ⟨(fun v hv => by cases hv), hthis, trivial, hg⟩

theorem callObject_seals_succ (ih : MachineSeals P O n) {id : ObjId} {this : Value}
    {args : List Value} (hw : w.Running P O) (hthis : this.NotShared P)
    (hargs : ∀ v ∈ args, v.NotShared P) :
    Seals P O (callObject (n + 1) id this args) w fun v _ => v.NotShared P := by
  simp only [callObject]
  refine keeps_get_bind ?_
  split
  · exact ih.native _ _ _ w hw hthis hargs
  · -- a script function runs under the global object it closed over
    rename_i name code scope global hk
    have hs : (w.newScope (some scope)).2.Running P O := hw.of_sealed hw.newScope rfl
    exact keeps_modifyGet_bind (Running.grows hs) (ih.invoke _ _ _ _ _ _ hs
      ((hw.objs id).script name code scope global hk) hthis hargs)
  · exact keeps_get_bind (keeps_throw hw)

theorem construct_seals_succ (ih : MachineSeals P O n) {f : Value} {args : List Value}
    (hw : w.Running P O) (hargs : ∀ v ∈ args, v.NotShared P) :
    Seals P O (construct (n + 1) f args) w fun v _ => v.NotShared P := by
  simp only [construct]
  refine keeps_get_bind ?_
  split
  · rename_i fid
    split
    · exact keeps_throw_bind hw
    · -- the new object is fresh, whichever prototype it inherits from
      have htail : ∀ p w', w'.Running P O →
          Seals P O (pure p >>= fun proto => make (allocPlain (some proto)) >>= fun inst =>
            discard (callWith n (.obj fid) (.obj inst) args) >>= fun _ => pure (Value.obj inst))
            w' fun v _ => v.NotShared P := by
        intro p w' hw'
        have ha : (w'.allocPlain (some p)).2.Running P O := hw'.of_sealed hw'.allocPlain rfl
        refine keeps_pure_bind (keeps_modifyGet_bind (Running.grows ha) ?_)
        refine keeps_bind (keeps_map (R := fun _ _ => True) (ih.callWith _ _ _ _ ha
          hw'.fresh hargs) fun _ _ _ _ => trivial) fun _ w'' hg' _ => ?_
        exact keeps_pure hg'.1 hw'.fresh
      refine keeps_bind (seals_lift (Q := fun _ _ => True) hw fun _ _ => trivial)
        fun v w' hg _ => ?_
      split
      · exact htail _ w' hg.1
      · exact htail _ w' hg.1
  · exact keeps_throw hw

theorem evalIn_seals_succ (ih : MachineSeals P O n) {src : String} {s : ScopeId} {this : Value}
    (hw : w.Running P O) (hthis : this.NotShared P) :
    Seals P O (evalIn (n + 1) src s this) w fun v _ => v.NotShared P := by
  simp only [evalIn]
  refine keeps_bind (seals_lift (Q := fun _ _ => True) hw fun _ _ => trivial)
    fun code w' hg _ => ?_
  exact keeps_get_bind (ih.invoke _ _ _ _ _ w' hg.1 hg.1.global hthis fun v hv => by cases hv)

theorem native_seals_succ (ih : MachineSeals P O n) {k : Native} {this : Value}
    {args : List Value} (hw : w.Running P O) (hthis : this.NotShared P)
    (hargs : ∀ v ∈ args, v.NotShared P) :
    Seals P O (native (n + 1) k this args) w fun v _ => v.NotShared P := by
  have hhead : (args.headD .undefined).NotShared P := by
    cases args with
    | nil => trivial
    | cons a rest => exact hargs a List.mem_cons_self
  cases k with
  | eval =>
    unfold native
    dsimp only
    split
    · exact keeps_get_bind (ih.evalIn _ _ _ w hw hw.callerThis)
    · exact keeps_pure hw (hargs _ List.mem_cons_self)
    · exact keeps_pure hw trivial
  | print =>
    simp only [native]
    refine keeps_bind (keeps_forIn hw fun a _ _ w' hw' => ?_) fun _ w' hg _ => ?_
    · refine keeps_bind (text_seals hw') fun t w'' hg _ => ?_
      have hprinted : { w'' with printed := w''.printed.push (t ++ "\n") }.Sealed P O :=
        hg.1.with_printed
      have hp := hg.1.of_sealed hprinted rfl
      exact keeps_modify_bind (Running.grows hp) (keeps_pure hp trivial)
    · exact keeps_pure hg.1 hhead
  | objectCtor =>
    unfold native
    dsimp only
    split
    · exact keeps_pure hw (hargs _ List.mem_cons_self)
    · -- a receiver that already inherits from `Object.prototype` is kept; else a new object
      refine keeps_bind (objectPrototype_seals hw) fun p w' hg _ => keeps_get_bind ?_
      have ha : (w'.allocPlain (some p)).2.Running P O := hg.1.of_sealed hg.1.allocPlain rfl
      have hnew : Seals P O (make (allocPlain (some p)) >>= fun inst => pure (Value.obj inst)) w'
          fun v _ => v.NotShared P :=
        keeps_modifyGet_bind (Running.grows ha) (keeps_pure ha hg.1.fresh)
      split
      · split
        · exact keeps_pure hg.1 hthis
        · exact hnew
      · exact hnew
  | hasOwnProperty =>
    simp only [native]
    refine keeps_bind (text_seals hw) fun _ w' hg _ => ?_
    exact keeps_bind (hasOwn_seals hg.1) fun _ _ hg' _ => keeps_pure hg'.1 trivial
  | toString =>
    simp only [native]
    exact keeps_bind (classTag_seals hw) fun _ _ hg _ => keeps_pure hg.1 trivial
  | call =>
    unfold native
    dsimp only
    split
    · exact ih.callWith _ _ _ w hw (hargs _ List.mem_cons_self)
        fun v hv => hargs v (List.mem_cons_of_mem _ hv)
    · exact ih.callWith _ _ _ w hw trivial fun v hv => by cases hv

/-- Every runner of the machine, at every fuel, keeps code running sealed and returns no shared
prototype. -/
theorem machine_seals (n : Nat) : MachineSeals P O n := by
  induction n with
  | zero => exact machineSeals_zero
  | succ n ih =>
    exact {
      exec := fun _ _ hw hfr => exec_seals_succ ih hw hfr
      step := fun _ i _ hw hfr => step_seals ih.callWith ih.construct hw hfr i
      callWith := fun _ _ _ _ hw hthis hargs => callWith_seals_succ ih hw hthis hargs
      callObject := fun _ _ _ _ hw hthis hargs => callObject_seals_succ ih hw hthis hargs
      invoke := fun _ _ _ _ _ _ hw hg hthis hargs => invoke_seals_succ ih hw hg hthis hargs
      construct := fun _ _ _ hw hargs => construct_seals_succ ih hw hargs
      evalIn := fun _ _ _ _ hw hthis => evalIn_seals_succ ih hw hthis
      native := fun _ _ _ _ hw hthis hargs => native_seals_succ ih hw hthis hargs }

end Run

end EcmaLite
