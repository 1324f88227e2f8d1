import EcmaLite.Proofs.Keeps

/-!
# The machine keeps the world sound

Every runner of the machine (`exec`, `step`, `callWith`, `callObject`, `invoke`, `construct`,
`evalIn`, `native`), run on a sound world with allocated inputs, ends in a sound world with at
least the same objects, whether it returns or faults, and what it returns is allocated
(`machine_keeps`). In particular no run of the machine gives the prototype relation a cycle:
the only prototypes it sets are those of new objects, to objects already allocated.

The proof is one induction on the fuel over the mutual block; at each fuel a step is taken apart
instruction by instruction with the lemmas of `Keeps`.
-/

namespace EcmaLite

open World Run

/-- The values a frame holds are below `n`. -/
structure Frame.Below (n : Nat) (fr : Frame) : Prop where
  stack : ∀ v ∈ fr.stack, v.Below n
  this : fr.this.Below n
  completion : fr.completion.Below n

/-- What an instruction leaves holds values below `n` only. -/
def Next.Below (n : Nat) : Next → Prop
  | .go fr => fr.Below n
  | .finish v => v.Below n

/-- What an instruction leaves is allocated. -/
def Run.NextOk (nx : Next) (w : World) : Prop := nx.Below w.objs.size

namespace Frame

variable {n m : Nat} {fr : Frame} {v : Value}

theorem Below.mono (h : fr.Below n) (hnm : n ≤ m) : fr.Below m where
  stack x hx := (h.stack x hx).mono hnm
  this := h.this.mono hnm
  completion := h.completion.mono hnm

theorem Below.push (h : fr.Below n) (hv : v.Below n) : (fr.push v).Below n where
  stack x hx := by
    rcases List.mem_cons.mp hx with rfl | hx
    · exact hv
    · exact h.stack x hx
  this := h.this
  completion := h.completion

theorem Below.pop_fst (h : fr.Below n) : fr.pop.1.Below n := by
  unfold pop
  split
  · exact h.stack _ (by simp_all)
  · trivial

theorem Below.pop_snd (h : fr.Below n) : fr.pop.2.Below n := by
  unfold pop
  split
  · rename_i v rest hs
    exact ⟨fun x hx => h.stack x (by rw [hs]; exact List.mem_cons_of_mem v hx), h.this,
      h.completion⟩
  · exact h

theorem Below.pop2_fst (h : fr.Below n) : fr.pop2.1.Below n := h.pop_snd.pop_fst

theorem Below.pop2_snd_fst (h : fr.Below n) : fr.pop2.2.1.Below n := h.pop_fst

theorem Below.pop2_snd_snd (h : fr.Below n) : fr.pop2.2.2.Below n := h.pop_snd.pop_snd

theorem Below.popN_fst (h : fr.Below n) {k : Nat} : ∀ x ∈ (fr.popN k).1, x.Below n := by
  intro x hx
  exact h.stack x (List.mem_of_mem_take (List.mem_reverse.mp hx))

theorem Below.popN_snd (h : fr.Below n) {k : Nat} : (fr.popN k).2.Below n :=
  ⟨fun x hx => h.stack x (List.mem_of_mem_drop hx), h.this, h.completion⟩

theorem Below.peek (h : fr.Below n) : fr.peek.Below n := by
  unfold Frame.peek
  cases hs : fr.stack with
  | nil => trivial
  | cons x rest => exact h.stack x (by rw [hs]; exact List.mem_cons_self)

theorem Below.goto (h : fr.Below n) {t : Nat} : (fr.goto t).Below n :=
  ⟨h.stack, h.this, h.completion⟩

theorem Below.with_ip (h : fr.Below n) {ip : Nat} : { fr with ip := ip }.Below n :=
  ⟨h.stack, h.this, h.completion⟩

theorem Below.with_completion (h : fr.Below n) (hv : v.Below n) :
    { fr with completion := v }.Below n :=
  ⟨h.stack, h.this, hv⟩

theorem const_below {k : Nat} : (fr.const k).Below n := by
  unfold Frame.const
  split <;> trivial

end Frame

namespace Run

variable {w : World} {fr : Frame}

theorem keeps_go (hw : w.Sound) (h : fr.Below w.objs.size) : Keeps (pure (Next.go fr)) w NextOk :=
  keeps_pure hw h

theorem keeps_push_bind {x : Run Value} (hx : Keeps x w ValueOk) (h : fr.Below w.objs.size) :
    Keeps (x >>= fun v => pure (Next.go (fr.push v))) w NextOk :=
  keeps_bind hx fun _ _ hg hv => keeps_go hg.1 ((h.mono hg.2).push hv)

theorem keeps_after {α : Type} {x : Run α} {P : α → World → Prop} (hx : Keeps x w P)
    (h : fr.Below w.objs.size) : Keeps (x >>= fun _ => pure (Next.go fr)) w NextOk :=
  keeps_bind hx fun _ _ hg _ => keeps_go hg.1 (h.mono hg.2)

/-- One instruction keeps the world sound and its frame allocated, given that the calls it makes
do. -/
theorem step_keeps {n : Nat}
    (hcall : ∀ f this args w, w.Sound → ValueOk this w → ValuesOk args w →
      Keeps (callWith n f this args) w ValueOk)
    (hcons : ∀ f args w, w.Sound → ValuesOk args w → Keeps (construct n f args) w ValueOk)
    (hw : w.Sound) (hfr : fr.Below w.objs.size) (i : Instr) :
    Keeps (step (n + 1) fr i) w NextOk := by
  cases i
  all_goals simp only [step, step.arith, step.test]
  case pushConst k => exact keeps_go hw (hfr.push Frame.const_below)
  case pushUndefined => exact keeps_go hw (hfr.push trivial)
  case pushNull => exact keeps_go hw (hfr.push trivial)
  case pushTrue => exact keeps_go hw (hfr.push trivial)
  case pushFalse => exact keeps_go hw (hfr.push trivial)
  case add => exact keeps_push_bind (add_keeps hw) hfr.pop2_snd_snd
  case sub => exact keeps_go hw (hfr.pop2_snd_snd.push trivial)
  case mul => exact keeps_go hw (hfr.pop2_snd_snd.push trivial)
  case div => exact keeps_go hw (hfr.pop2_snd_snd.push trivial)
  case mod => exact keeps_go hw (hfr.pop2_snd_snd.push trivial)
  case negate => exact keeps_go hw (hfr.pop_snd.push trivial)
  case toNumber => exact keeps_go hw (hfr.pop_snd.push trivial)
  case strictEq => exact keeps_go hw (hfr.pop2_snd_snd.push trivial)
  case strictNe => exact keeps_go hw (hfr.pop2_snd_snd.push trivial)
  case looseEq => exact keeps_go hw (hfr.pop2_snd_snd.push trivial)
  case looseNe => exact keeps_go hw (hfr.pop2_snd_snd.push trivial)
  case lt => exact keeps_go hw (hfr.pop2_snd_snd.push trivial)
  case le => exact keeps_go hw (hfr.pop2_snd_snd.push trivial)
  case gt => exact keeps_go hw (hfr.pop2_snd_snd.push trivial)
  case ge => exact keeps_go hw (hfr.pop2_snd_snd.push trivial)
  case instanceOf =>
    exact keeps_bind (instanceOf_keeps hw) fun _ _ hg _ =>
      keeps_go hg.1 ((hfr.pop2_snd_snd.mono hg.2).push trivial)
  case hasIn =>
    exact keeps_bind (hasIn_keeps hw) fun _ _ hg _ =>
      keeps_go hg.1 ((hfr.pop2_snd_snd.mono hg.2).push trivial)
  case not => exact keeps_go hw (hfr.pop_snd.push trivial)
  case typeOf => exact keeps_get_bind (keeps_go hw (hfr.pop_snd.push trivial))
  case typeOfVar k =>
    exact keeps_bind (typeOfVar_keeps hw) fun _ _ hg _ => keeps_go hg.1 ((hfr.mono hg.2).push trivial)
  case void => exact keeps_go hw (hfr.pop_snd.push trivial)
  case getVar k => exact keeps_push_bind (getVar_keeps hw) hfr
  case setVar k => exact keeps_after (setVar_keeps hw hfr.peek) hfr
  case declareVar k =>
    exact keeps_modify_bind (grows_declare hw) (keeps_go (grows_declare hw).1 (hfr.mono (grows_declare hw).2))
  case bindFunction k =>
    have hb : w.Grows (w.bind fr.pop.2.scope (fr.pop.2.name k) fr.pop.1) := grows_bind hw hfr.pop_fst
    exact keeps_modify_bind hb (keeps_go hb.1 (hfr.pop_snd.mono hb.2))
  case jump t => exact keeps_go hw hfr.goto
  case jumpIfFalse t =>
    refine keeps_go hw ?_
    split
    · exact hfr.pop_snd
    · exact hfr.pop_snd.goto
  case jumpIfTrue t =>
    refine keeps_go hw ?_
    split
    · exact hfr.pop_snd.goto
    · exact hfr.pop_snd
  case pop => exact keeps_go hw hfr.pop_snd
  case dup => exact keeps_go hw (hfr.push hfr.peek)
  case dup2 =>
    exact keeps_go hw ((((hfr.pop2_snd_snd.push hfr.pop2_fst).push hfr.pop2_snd_fst).push
      hfr.pop2_fst).push hfr.pop2_snd_fst)
  case getProp k => exact keeps_push_bind (getProp_keeps hw) hfr.pop_snd
  case setProp k => exact keeps_after (setProp_keeps hw hfr.pop2_snd_fst) (hfr.pop2_snd_snd.push hfr.pop2_snd_fst)
  case getElem => exact keeps_push_bind (getElem_keeps hw) hfr.pop2_snd_snd
  case setElem =>
    exact keeps_get_bind (keeps_after (setProp_keeps hw hfr.pop_fst)
      (hfr.pop_snd.pop2_snd_snd.push hfr.pop_fst))
  case deleteProp k =>
    exact keeps_bind (deleteProp_keeps hw) fun _ _ hg _ =>
      keeps_go hg.1 ((hfr.pop_snd.mono hg.2).push trivial)
  case deleteElem =>
    exact keeps_get_bind (keeps_bind (deleteProp_keeps hw) fun _ _ hg _ =>
      keeps_go hg.1 ((hfr.pop2_snd_snd.mono hg.2).push trivial))
  case newObject =>
    have hg := grows_allocObject hw
    exact keeps_make_bind hg (keeps_go hg.1 ((hfr.mono hg.2).push alloc_fst_lt))
  case initProp k =>
    split
    · rename_i id _
      have hp : w.Grows (w.put id (fr.pop2.2.2.name k) fr.pop2.2.1) := grows_put hw hfr.pop2_snd_fst
      exact keeps_modify_bind hp (keeps_go hp.1 ((hfr.pop2_snd_snd.push hfr.pop2_fst).mono hp.2))
    · exact keeps_go hw hfr.pop2_snd_snd
  case newArray c =>
    have hg : w.Grows (w.allocArray (fr.popN c).1).2 := grows_allocArray hw hfr.popN_fst
    exact keeps_make_bind hg (keeps_go hg.1 ((hfr.popN_snd.mono hg.2).push alloc_fst_lt))
  case makeClosure k => exact keeps_push_bind (makeClosure_keeps hw) hfr
  case call c =>
    refine keeps_bind (exposeCaller_keeps hw hfr.popN_snd.pop_snd.this) fun _ w' hg _ => ?_
    refine keeps_get_bind (keeps_push_bind (hcall _ _ _ w' hg.1 hg.1.global ?_) ?_)
    · exact fun v hv => hg.below (hfr.popN_fst v hv)
    · exact hfr.popN_snd.pop_snd.mono hg.2
  case callMethod c =>
    refine keeps_bind (exposeCaller_keeps hw hfr.popN_snd.pop2_snd_snd.this) fun _ w' hg _ => ?_
    refine keeps_push_bind (hcall _ _ _ w' hg.1 (hg.below hfr.popN_snd.pop2_fst) ?_) ?_
    · exact fun v hv => hg.below (hfr.popN_fst v hv)
    · exact hfr.popN_snd.pop2_snd_snd.mono hg.2
  case construct c =>
    refine keeps_bind (exposeCaller_keeps hw hfr.popN_snd.pop_snd.this) fun _ w' hg _ => ?_
    refine keeps_push_bind (hcons _ _ w' hg.1 ?_) ?_
    · exact fun v hv => hg.below (hfr.popN_fst v hv)
    · exact hfr.popN_snd.pop_snd.mono hg.2
  case this => exact keeps_go hw (hfr.push hfr.this)
  case updateVar k op isPrefix =>
    refine keeps_bind (getVar_keeps hw) fun _ w' hg _ => ?_
    exact keeps_bind (setVar_keeps hg.1 trivial) fun _ _ hg' _ =>
      keeps_go hg'.1 ((hfr.mono (hg.trans hg').2).push trivial)
  case updateProp k op isPrefix => exact keeps_push_bind (updateProp_keeps hw) hfr.pop_snd
  case updateElem op isPrefix => exact keeps_get_bind (keeps_push_bind (updateProp_keeps hw) hfr.pop2_snd_snd)
  case setCompletion => exact keeps_go hw (hfr.pop_snd.with_completion hfr.pop_fst)
  case ret => exact keeps_pure hw hfr.pop_fst
  case halt => exact keeps_pure hw hfr.completion

/-- What the runners keep at fuel `n`: from a sound world and with allocated inputs, each run
keeps the world sound and growing, and returns an allocated value. -/
structure MachineKeeps (n : Nat) : Prop where
  exec : ∀ fr w, w.Sound → fr.Below w.objs.size → Keeps (exec n fr) w ValueOk
  step : ∀ fr i w, w.Sound → fr.Below w.objs.size → Keeps (step n fr i) w NextOk
  callWith : ∀ f this args w, w.Sound → ValueOk this w → ValuesOk args w →
    Keeps (callWith n f this args) w ValueOk
  callObject : ∀ id this args w, w.Sound → ValueOk this w → ValuesOk args w →
    Keeps (callObject n id this args) w ValueOk
  invoke : ∀ code global s this args w, w.Sound → ValueOk this w → ValuesOk args w →
    Keeps (invoke n code global s this args) w ValueOk
  construct : ∀ f args w, w.Sound → ValuesOk args w → Keeps (construct n f args) w ValueOk
  evalIn : ∀ src s this w, w.Sound → ValueOk this w → Keeps (evalIn n src s this) w ValueOk
  native : ∀ k this args w, w.Sound → ValueOk this w → ValuesOk args w →
    Keeps (native n k this args) w ValueOk

theorem machineKeeps_zero : MachineKeeps 0 where
  exec _ w hw _ := by
    simp only [exec]
    exact keeps_throw hw
  step _ _ _ hw _ := by
    simp only [step]
    exact keeps_throw hw
  callWith _ _ _ _ hw _ _ := by
    simp only [callWith]
    exact keeps_throw hw
  callObject _ _ _ _ hw _ _ := by
    simp only [callObject]
    exact keeps_throw hw
  invoke _ _ _ _ _ _ hw _ _ := by
    simp only [invoke]
    exact keeps_throw hw
  construct _ _ _ hw _ := by
    simp only [construct]
    exact keeps_throw hw
  evalIn _ _ _ _ hw _ := by
    simp only [evalIn]
    exact keeps_throw hw
  native _ _ _ _ hw _ _ := by
    simp only [native]
    exact keeps_throw hw

variable {n : Nat}

/-- A frame runs instruction after instruction, each kept by `step`. -/
theorem exec_keeps_succ (ih : MachineKeeps n) (hw : w.Sound) (hfr : fr.Below w.objs.size) :
    Keeps (exec (n + 1) fr) w ValueOk := by
  show Ends World.Sound (·.objs.size) w ValueOk (exec (n + 1) fr w)
  simp only [exec]
  split
  · exact ⟨Grows.refl hw, hfr.completion⟩
  · rename_i i _
    have hs : Ends World.Sound (·.objs.size) w NextOk (step n { fr with ip := fr.ip + 1 } i w) :=
      ih.step { fr with ip := fr.ip + 1 } i w hw hfr.with_ip
    cases hr : step n { fr with ip := fr.ip + 1 } i w with
    | ok nx w' =>
      rw [hr] at hs
      cases nx with
      | go fr' => exact (ih.exec fr' w' hs.1.1 hs.2).of_grows hs.1
      | finish v => exact hs
    | error e w' =>
      rw [hr] at hs
      exact hs

theorem callWith_keeps_succ (ih : MachineKeeps n) {f this : Value} {args : List Value}
    (hw : w.Sound) (hthis : ValueOk this w) (hargs : ValuesOk args w) :
    Keeps (callWith (n + 1) f this args) w ValueOk := by
  simp only [callWith]
  refine keeps_get_bind ?_
  split
  · split
    · exact keeps_throw_bind hw
    · split
      · exact keeps_throw_bind hw
      · -- the call is counted while it runs, and uncounted however it ends
        have hin := grows_with_depth (d := w.ctx.depth + 1) hw
        refine keeps_modify_bind hin (keeps_bind (keeps_tryCatch (ih.callObject _ _ _ _ hin.1
          (hin.below hthis) (hargs.grows hin)) fun e w' hg => ?_) fun r w' hg hr => ?_)
        · exact keeps_modify_bind (grows_with_depth hg.1) (keeps_throw (grows_with_depth hg.1).1)
        · exact keeps_modify_bind (grows_with_depth hg.1)
            (keeps_pure (grows_with_depth hg.1).1 hr)
  · exact keeps_throw hw

theorem invoke_keeps_succ (ih : MachineKeeps n) {code : Code} {global : ObjId} {s : ScopeId}
    {this : Value} {args : List Value} (hw : w.Sound) (hthis : ValueOk this w)
    (hargs : ValuesOk args w) : Keeps (invoke (n + 1) code global s this args) w ValueOk := by
  simp only [invoke]
  refine keeps_bind (bindParams_keeps hw hargs) fun _ w' hg _ => ?_
  exact ih.exec _ w' hg.1 ⟨(fun v hv => by cases hv), hg.below hthis, trivial⟩

theorem callObject_keeps_succ (ih : MachineKeeps n) {id : ObjId} {this : Value}
    {args : List Value} (hw : w.Sound) (hthis : ValueOk this w) (hargs : ValuesOk args w) :
    Keeps (callObject (n + 1) id this args) w ValueOk := by
  simp only [callObject]
  refine keeps_get_bind ?_
  split
  · exact ih.native _ _ _ w hw hthis hargs
  · -- a script function runs in a new scope inside the one it closes over
    exact keeps_make_bind (grows_newScope hw) (ih.invoke _ _ _ _ _ _ (grows_newScope hw).1
      ((grows_newScope hw).below hthis) (hargs.grows (grows_newScope hw)))
  · exact keeps_get_bind (keeps_throw hw)

theorem construct_keeps_succ (ih : MachineKeeps n) {f : Value} {args : List Value}
    (hw : w.Sound) (hargs : ValuesOk args w) : Keeps (construct (n + 1) f args) w ValueOk := by
  simp only [construct]
  refine keeps_get_bind ?_
  split
  · rename_i fid
    split
    · exact keeps_throw_bind hw
    · -- the new object inherits from an allocated object: `F.prototype` or the shared one
      have htail : ∀ p w', w.Grows w' → p < w'.objs.size →
          Keeps (pure p >>= fun proto => make (allocPlain (some proto)) >>= fun inst =>
            discard (callWith n (.obj fid) (.obj inst) args) >>= fun _ => pure (Value.obj inst)) w' ValueOk := by
        intro p w' hg hp
        have ha : w'.Grows (w'.allocPlain (some p)).2 :=
          grows_allocPlain hg.1 fun q hq => by cases hq; exact hp
        refine keeps_pure_bind (keeps_make_bind ha ?_)
        refine keeps_bind (keeps_map (R := fun _ _ => True) (ih.callWith _ _ _ _ ha.1
          (Value.below_obj.mpr alloc_fst_lt) (hargs.grows (hg.trans ha))) fun _ _ _ _ => trivial)
          fun _ w'' hg' _ => ?_
        exact keeps_pure hg'.1 (hg'.below alloc_fst_lt)
      refine keeps_bind (keeps_lift (Q := ValueOk) hw fun v hv => hw.toClosed.getProp_below hv)
        fun v w' hg hv => ?_
      split
      · exact htail _ w' hg hv
      · exact htail _ w' hg (Nat.lt_of_lt_of_le hw.protoObject hg.2)
  · exact keeps_throw hw

theorem evalIn_keeps_succ (ih : MachineKeeps n) {src : String} {s : ScopeId} {this : Value}
    (hw : w.Sound) (hthis : ValueOk this w) : Keeps (evalIn (n + 1) src s this) w ValueOk := by
  simp only [evalIn]
  refine keeps_bind (keeps_lift (Q := fun _ _ => True) hw fun _ _ => trivial) fun code w' hg _ => ?_
  exact keeps_get_bind (ih.invoke _ _ _ _ _ w' hg.1 (hg.below hthis) fun v hv => by cases hv)

theorem native_keeps_succ (ih : MachineKeeps n) {k : Native} {this : Value} {args : List Value}
    (hw : w.Sound) (hthis : ValueOk this w) (hargs : ValuesOk args w) :
    Keeps (native (n + 1) k this args) w ValueOk := by
  have hhead : ValueOk (args.headD .undefined) w := by
    cases args with
    | nil => trivial
    | cons a rest => exact hargs a List.mem_cons_self
  cases k with
  | eval =>
    unfold native
    dsimp only
    split
    · exact keeps_get_bind (ih.evalIn _ _ _ w hw hw.callerThis)
    · exact keeps_pure hw (hargs _ List.mem_cons_self)
    · exact keeps_pure hw trivial
  | print =>
    simp only [native]
    refine keeps_bind (keeps_forIn hw fun a _ _ w' hw' => ?_) fun _ w' hg _ => ?_
    · refine keeps_bind (text_keeps hw') fun t w'' hg _ => ?_
      exact keeps_modify_bind (grows_with_printed hg.1) (keeps_pure (grows_with_printed hg.1).1 trivial)
    · exact keeps_pure hg.1 (hhead.grows hg)
  | objectCtor =>
    unfold native
    dsimp only
    split
    · exact keeps_pure hw (hargs _ List.mem_cons_self)
    · -- a receiver that already inherits from `Object.prototype` is kept; else a new object
      refine keeps_bind (objectPrototype_keeps hw) fun p w' hg hp => keeps_get_bind ?_
      have ha : w'.Grows (w'.allocPlain (some p)).2 :=
        grows_allocPlain hg.1 fun q hq => by cases hq; exact hp
      have hnew : Keeps (make (allocPlain (some p)) >>= fun inst => pure (Value.obj inst)) w'
          ValueOk :=
        keeps_make_bind ha (keeps_pure ha.1 alloc_fst_lt)
      split
      · split
        · exact keeps_pure hg.1 (hthis.grows hg)
        · exact hnew
      · exact hnew
  | hasOwnProperty =>
    simp only [native]
    refine keeps_bind (text_keeps hw) fun _ w' hg _ => ?_
    exact keeps_bind (hasOwn_keeps hg.1) fun _ _ hg' _ => keeps_pure hg'.1 trivial
  | toString =>
    simp only [native]
    exact keeps_bind (classTag_keeps hw) fun _ _ hg _ => keeps_pure hg.1 trivial
  | call =>
    unfold native
    dsimp only
    split
    · exact ih.callWith _ _ _ w hw (hargs _ List.mem_cons_self)
        fun v hv => hargs v (List.mem_cons_of_mem _ hv)
    · exact ih.callWith _ _ _ w hw trivial fun v hv => by cases hv

/-- Every runner of the machine, at every fuel, keeps the world sound and growing and returns
allocated values. -/
theorem machine_keeps (n : Nat) : MachineKeeps n := by
  induction n with
  | zero => exact machineKeeps_zero
  | succ n ih =>
    exact {
      exec := fun _ _ hw hfr => exec_keeps_succ ih hw hfr
      step := fun _ i _ hw hfr => step_keeps ih.callWith ih.construct hw hfr i
      callWith := fun _ _ _ _ hw hthis hargs => callWith_keeps_succ ih hw hthis hargs
      callObject := fun _ _ _ _ hw hthis hargs => callObject_keeps_succ ih hw hthis hargs
      invoke := fun _ _ _ _ _ _ hw hthis hargs => invoke_keeps_succ ih hw hthis hargs
      construct := fun _ _ _ hw hargs => construct_keeps_succ ih hw hargs
      evalIn := fun _ _ _ _ hw hthis => evalIn_keeps_succ ih hw hthis
      native := fun _ _ _ _ hw hthis hargs => native_keeps_succ ih hw hthis hargs }

end Run

end EcmaLite
