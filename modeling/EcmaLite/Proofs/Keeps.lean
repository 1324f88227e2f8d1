import EcmaLite.Proofs.Sound
import EcmaLite.Machine.Run

/-!
# Runs that keep the world sound

`Keeps Inv μ x s Q` says that running `x` from a state `s` ends in a state that
satisfies the invariant `Inv` and has a measure `μ` no smaller than `s`'s, whether the run
succeeds or fails (both keep their state), and that a result satisfies `Q` there. The
combinators below take it through `pure`, `bind`, `throw`, `tryCatch`, `map`, `modify` and `for`
loops, once for every such monad.

For the machine the invariant is `World.Sound` and the measure the number of objects
(`Run.Keeps`); the lemmas after the combinators state it for each step of the machine that
touches the world (`getProp_keeps`, `setProp_keeps`, `makeClosure_keeps`, ...). Results are
mostly values, and for them `Q` says that the value is allocated in the final world
(`Run.ValueOk`).
-/

namespace EcmaLite

section Combinators

variable {ε σ α β : Type} {Inv : σ → Prop} {μ : σ → Nat} {s s' s'' : σ}
  {Q P : α → σ → Prop} {R : β → σ → Prop}

/-- `s'` satisfies the invariant and measures at least what `s` does. -/
def Grows (Inv : σ → Prop) (μ : σ → Nat) (s s' : σ) : Prop := Inv s' ∧ μ s ≤ μ s'

/-- What a result of a run from `s` keeps: its state grows from `s`, and a value it returns
satisfies `Q` there. -/
def Ends (Inv : σ → Prop) (μ : σ → Nat) (s : σ) (Q : α → σ → Prop) :
    EStateM.Result ε σ α → Prop
  | .ok a s' => Grows Inv μ s s' ∧ Q a s'
  | .error _ s' => Grows Inv μ s s'

/-- Running `x` from `s` keeps the invariant and grows, and what it returns satisfies `Q`. -/
def Keeps (Inv : σ → Prop) (μ : σ → Nat) (x : EStateM ε σ α) (s : σ) (Q : α → σ → Prop) :
    Prop :=
  Ends Inv μ s Q (x s)

theorem Grows.refl (hs : Inv s) : Grows Inv μ s s := ⟨hs, Nat.le_refl _⟩

theorem Grows.trans (h : Grows Inv μ s s') (h' : Grows Inv μ s' s'') : Grows Inv μ s s'' :=
  ⟨h'.1, Nat.le_trans h.2 h'.2⟩

theorem Ends.of_grows {r : EStateM.Result ε σ α} (h : Ends Inv μ s' Q r)
    (hg : Grows Inv μ s s') : Ends Inv μ s Q r := by
  cases r with
  | ok a s'' => exact ⟨hg.trans h.1, h.2⟩
  | error e s'' => exact hg.trans h

theorem Keeps.of_grows {x : EStateM ε σ α} (h : Keeps Inv μ x s' Q) (hg : Grows Inv μ s s') :
    Ends Inv μ s Q (x s') :=
  Ends.of_grows h hg

/-- A run that keeps an invariant keeps every weaker one. -/
theorem Keeps.weaken {Inv' : σ → Prop} {x : EStateM ε σ α} (h : Keeps Inv μ x s Q)
    (hI : ∀ s', Inv s' → Inv' s') : Keeps Inv' μ x s Q := by
  unfold Keeps at h ⊢
  cases hr : x s with
  | ok a s' =>
    rw [hr] at h
    exact ⟨⟨hI s' h.1.1, h.1.2⟩, h.2⟩
  | error e s' =>
    rw [hr] at h
    exact ⟨hI s' h.1, h.2⟩

theorem Keeps.mono {x : EStateM ε σ α} (h : Keeps Inv μ x s P)
    (hpq : ∀ a s', Grows Inv μ s s' → P a s' → Q a s') : Keeps Inv μ x s Q := by
  unfold Keeps at h ⊢
  cases hr : x s with
  | ok a s' =>
    rw [hr] at h
    exact ⟨h.1, hpq a s' h.1 h.2⟩
  | error e s' =>
    rw [hr] at h
    exact h

theorem keeps_pure (hs : Inv s) {a : α} (hq : Q a s) :
    Keeps Inv μ (pure a : EStateM ε σ α) s Q :=
  ⟨Grows.refl hs, hq⟩

theorem keeps_throw (hs : Inv s) {e : ε} : Keeps Inv μ (throw e : EStateM ε σ α) s Q :=
  Grows.refl hs

/-- The step lemma for `bind`: the rest runs from where the first part ends. -/
theorem keeps_bind {x : EStateM ε σ α} {f : α → EStateM ε σ β} (hx : Keeps Inv μ x s P)
    (hf : ∀ a s', Grows Inv μ s s' → P a s' → Keeps Inv μ (f a) s' R) :
    Keeps Inv μ (x >>= f) s R := by
  show Ends Inv μ s R (EStateM.bind x f s)
  unfold EStateM.bind
  unfold Keeps at hx
  cases hr : x s with
  | ok a s' =>
    rw [hr] at hx
    exact (hf a s' hx.1 hx.2).of_grows hx.1
  | error e s' =>
    rw [hr] at hx
    exact hx

theorem keeps_map {x : EStateM ε σ α} {g : α → β} (hx : Keeps Inv μ x s P)
    (hg : ∀ a s', Grows Inv μ s s' → P a s' → R (g a) s') : Keeps Inv μ (g <$> x) s R := by
  show Ends Inv μ s R (EStateM.map g x s)
  unfold EStateM.map
  unfold Keeps at hx
  cases hr : x s with
  | ok a s' =>
    rw [hr] at hx
    exact ⟨hx.1, hg a s' hx.1 hx.2⟩
  | error e s' =>
    rw [hr] at hx
    exact hx

theorem keeps_tryCatch {x : EStateM ε σ α} {h : ε → EStateM ε σ α} (hx : Keeps Inv μ x s Q)
    (hh : ∀ e s', Grows Inv μ s s' → Keeps Inv μ (h e) s' Q) :
    Keeps Inv μ (tryCatch x h) s Q := by
  show Ends Inv μ s Q (EStateM.tryCatch x h s)
  unfold EStateM.tryCatch
  unfold Keeps at hx
  cases hr : x s with
  | ok a s' =>
    rw [hr] at hx
    exact hx
  | error e s' =>
    rw [hr] at hx
    exact (hh e s' hx).of_grows hx

theorem keeps_pure_bind {a : β} {f : β → EStateM ε σ α} (hf : Keeps Inv μ (f a) s Q) :
    Keeps Inv μ (pure a >>= f) s Q := hf

theorem keeps_throw_bind (hs : Inv s) {e : ε} {f : β → EStateM ε σ α} :
    Keeps Inv μ (throw e >>= f) s Q :=
  Grows.refl hs

theorem keeps_get_bind {f : σ → EStateM ε σ α} (hf : Keeps Inv μ (f s) s Q) :
    Keeps Inv μ (get >>= f) s Q := hf

theorem keeps_set_bind {s' : σ} {k : PUnit → EStateM ε σ α} (hg : Grows Inv μ s s')
    (hk : Keeps Inv μ (k ⟨⟩) s' Q) : Keeps Inv μ (set s' >>= k) s Q :=
  hk.of_grows hg

theorem keeps_modify {f : σ → σ} (hf : Grows Inv μ s (f s)) :
    Keeps Inv μ (modify f : EStateM ε σ PUnit) s fun _ _ => True :=
  ⟨hf, trivial⟩

theorem keeps_modify_bind {f : σ → σ} {k : PUnit → EStateM ε σ α} (hf : Grows Inv μ s (f s))
    (hk : Keeps Inv μ (k ⟨⟩) (f s) Q) : Keeps Inv μ (modify f >>= k) s Q :=
  hk.of_grows hf

theorem keeps_modifyGet_bind {g : σ → β × σ} {k : β → EStateM ε σ α}
    (hg : Grows Inv μ s (g s).2) (hk : Keeps Inv μ (k (g s).1) (g s).2 Q) :
    Keeps Inv μ (modifyGet g >>= k) s Q :=
  hk.of_grows hg

/-- A loop over a list keeps what each round keeps. -/
theorem keeps_forIn {γ : Type} {xs : List γ} {b : β} {f : γ → β → EStateM ε σ (ForInStep β)}
    (hs : Inv s) (hf : ∀ x ∈ xs, ∀ b s', Inv s' → Keeps Inv μ (f x b) s' fun _ _ => True) :
    Keeps Inv μ (forIn xs b f) s fun _ _ => True := by
  induction xs generalizing b s with
  | nil => exact keeps_pure hs trivial
  | cons x xs ih =>
    rw [List.forIn_cons]
    refine keeps_bind (hf x (List.mem_cons_self ..) b s hs) fun step s' hg _ => ?_
    cases step with
    | done b' => exact keeps_pure hg.1 trivial
    | yield b' => exact ih hg.1 fun y hy => hf y (List.mem_cons_of_mem x hy)

end Combinators

/-- `w'` is sound and has at least the objects of `w`. -/
abbrev World.Grows (w w' : World) : Prop := EcmaLite.Grows World.Sound (·.objs.size) w w'

/-- What is allocated stays allocated as the world grows. -/
theorem Grows.below {w w' : World} {v : Value} (h : w.Grows w') (hv : v.Below w.objs.size) :
    v.Below w'.objs.size :=
  hv.mono h.2

namespace Run

open World

/-- Running `x` from `w` keeps the world sound and growing, and what it returns satisfies
`Q`. -/
abbrev Keeps {α : Type} (x : Run α) (w : World) (Q : α → World → Prop) : Prop :=
  EcmaLite.Keeps World.Sound (·.objs.size) x w Q

/-- A value allocated in the world. -/
def ValueOk (v : Value) (w : World) : Prop := v.Below w.objs.size

/-- Every value of a list is allocated. -/
def ValuesOk (vs : List Value) (w : World) : Prop := ∀ v ∈ vs, v.Below w.objs.size

variable {α β : Type} {w : World} {Q P : α → World → Prop} {R : β → World → Prop}

theorem ValueOk.grows {v : Value} {w' : World} (h : ValueOk v w) (hg : w.Grows w') :
    ValueOk v w' :=
  hg.below h

theorem ValuesOk.grows {vs : List Value} {w' : World} (h : ValuesOk vs w) (hg : w.Grows w') :
    ValuesOk vs w' :=
  fun v hv => hg.below (h v hv)

theorem keeps_make_bind {g : World → β × World} {k : β → Run α} (hg : w.Grows (g w).2)
    (hk : Keeps (k (g w).1) (g w).2 Q) : Keeps (make g >>= k) w Q :=
  keeps_modifyGet_bind hg hk

theorem keeps_lift {e : Except Fault α} (hw : w.Sound) (h : ∀ a, e = .ok a → Q a w) :
    Keeps (lift e) w Q := by
  cases e with
  | error f => exact keeps_throw hw
  | ok a => exact keeps_pure hw (h a rfl)

/-! ## Growing the world -/

theorem grows_put (hw : w.Sound) {id : ObjId} {key : String} {v : Value}
    (hv : v.Below w.objs.size) : w.Grows (w.put id key v) :=
  ⟨hw.put hv, by dsimp only; rw [size_put]⟩

theorem grows_deleteOwn (hw : w.Sound) {id : ObjId} {key : String} :
    w.Grows (w.update id (·.deleteOwn key)) :=
  ⟨hw.deleteOwn, by dsimp only; rw [size_update]⟩

theorem grows_bind (hw : w.Sound) {s : ScopeId} {name : String} {v : Value}
    (hv : v.Below w.objs.size) : w.Grows (w.bind s name v) :=
  ⟨hw.bind hv, Nat.le_refl _⟩

theorem grows_declare (hw : w.Sound) {s : ScopeId} {name : String} : w.Grows (w.declare s name) :=
  ⟨hw.declare, by dsimp only; rw [objs_declare]⟩

theorem grows_newScope (hw : w.Sound) {outer : Option ScopeId} : w.Grows (w.newScope outer).2 :=
  ⟨hw.newScope outer, Nat.le_refl _⟩

theorem grows_allocPlain (hw : w.Sound) {proto : Option ObjId}
    (h : ∀ p, proto = some p → p < w.objs.size) : w.Grows (w.allocPlain proto).2 :=
  ⟨hw.allocPlain h, by simp [allocPlain]⟩

theorem grows_allocObject (hw : w.Sound) : w.Grows w.allocObject.2 :=
  ⟨hw.allocObject, by simp [allocObject, allocPlain]⟩

theorem grows_allocArray (hw : w.Sound) {elems : List Value} (h : ValuesOk elems w) :
    w.Grows (w.allocArray elems).2 :=
  ⟨hw.allocArray h, by simp [allocArray]⟩

theorem grows_allocFunction (hw : w.Sound) {name : String} {body : Callable} :
    w.Grows (w.allocFunction name body).2 :=
  ⟨hw.allocFunction name body, by dsimp only; rw [size_allocFunction]; omega⟩

theorem grows_with_ctx (hw : w.Sound) {c : Context} (hg : c.global < w.objs.size)
    (ht : c.callerThis.Below w.objs.size) : w.Grows { w with ctx := c } :=
  ⟨hw.with_ctx hg ht, Nat.le_refl _⟩

theorem grows_with_printed (hw : w.Sound) {out : Array String} :
    w.Grows { w with printed := out } :=
  ⟨hw.with_printed out, Nat.le_refl _⟩

theorem grows_with_depth (hw : w.Sound) {d : Nat} :
    w.Grows { w with ctx := { w.ctx with depth := d } } :=
  grows_with_ctx hw hw.global hw.callerThis

theorem allocFunction_lt {name : String} {body : Callable} :
    (w.allocFunction name body).1 < (w.allocFunction name body).2.objs.size := by
  rw [allocFunction_fst, size_allocFunction]
  exact Nat.lt_succ_self _

/-! ## Steps of the machine on the world -/

theorem text_keeps (hw : w.Sound) {v : Value} : Keeps (text v) w fun _ _ => True :=
  keeps_pure hw trivial

theorem getProp_keeps (hw : w.Sound) {base : Value} {key : String} :
    Keeps (Run.getProp base key) w ValueOk := by
  unfold Run.getProp
  refine keeps_get_bind ?_
  cases base with
  | obj id => exact keeps_lift hw fun v hv => hw.toClosed.getProp_below hv
  | undefined => exact keeps_throw hw
  | null => exact keeps_throw hw
  | str s =>
    dsimp only
    split
    · exact keeps_pure hw trivial
    · split
      · rename_i i _
        refine keeps_pure hw ?_
        cases s.toList[i]? <;> trivial
      · exact keeps_pure hw trivial
  | bool b => exact keeps_pure hw trivial
  | num x => exact keeps_pure hw trivial

theorem getElem_keeps (hw : w.Sound) {base key : Value} :
    Keeps (Run.getElem base key) w ValueOk := by
  unfold Run.getElem
  refine keeps_get_bind ?_
  have hlookup : ∀ id, Keeps (lift (w.getProp id (w.text key))) w ValueOk :=
    fun id => keeps_lift hw fun v hv => hw.toClosed.getProp_below hv
  split
  · rename_i id i
    split
    · rename_i es hes
      -- an array serves a present element at a non-negative `int` index directly
      split
      · rename_i v hv
        refine keeps_pure hw ?_
        split at hv
        · exact (hw.obj id).elems es hes _ v hv
        · cases hv
      · exact hlookup id
    · exact hlookup id
  · exact hlookup _
  · exact getProp_keeps hw

theorem setProp_keeps (hw : w.Sound) {base v : Value} {key : String}
    (hv : v.Below w.objs.size) : Keeps (Run.setProp base key v) w fun _ _ => True := by
  unfold Run.setProp
  cases base with
  | obj id => exact keeps_modify (grows_put hw hv)
  | undefined => exact keeps_throw hw
  | null => exact keeps_throw hw
  | _ => exact keeps_pure hw trivial

theorem deleteProp_keeps (hw : w.Sound) {base : Value} {key : String} :
    Keeps (Run.deleteProp base key) w fun _ _ => True := by
  unfold Run.deleteProp
  cases base with
  | obj id =>
    exact keeps_modify_bind (grows_deleteOwn hw) (keeps_pure (grows_deleteOwn hw).1 trivial)
  | undefined => exact keeps_throw hw
  | null => exact keeps_throw hw
  | _ => exact keeps_pure hw trivial

theorem getVar_keeps (hw : w.Sound) {fr : Frame} {name : String} :
    Keeps (getVar fr name) w ValueOk := by
  unfold getVar
  refine keeps_get_bind ?_
  split
  · exact keeps_pure hw (hw.resolve_below ‹_›)
  · exact keeps_lift hw fun v hv => hw.toClosed.getProp_below hv

theorem setVar_keeps (hw : w.Sound) {fr : Frame} {name : String} {v : Value}
    (hv : v.Below w.objs.size) : Keeps (setVar fr name v) w fun _ _ => True := by
  unfold setVar
  refine keeps_modify ?_
  split
  · exact grows_bind hw hv
  · exact grows_put hw hv

theorem typeOfVar_keeps (hw : w.Sound) {fr : Frame} {name : String} :
    Keeps (typeOfVar fr name) w fun _ _ => True := by
  unfold typeOfVar
  refine keeps_get_bind ?_
  split
  · exact keeps_pure hw trivial
  · refine keeps_bind (keeps_lift (Q := fun _ _ => True) hw fun _ _ => trivial) fun b w' hg _ => ?_
    split
    · refine keeps_bind (keeps_lift (Q := fun _ _ => True) hg.1 fun _ _ => trivial) fun _ w'' hg' _ => ?_
      exact keeps_pure hg'.1 trivial
    · exact keeps_pure hg.1 trivial

theorem add_keeps (hw : w.Sound) {a b : Value} : Keeps (add a b) w ValueOk := by
  unfold add
  refine keeps_get_bind ?_
  split
  · exact keeps_pure hw trivial
  · exact keeps_pure hw trivial
  · exact keeps_pure hw trivial
  · split
    · exact keeps_pure hw trivial
    · exact keeps_pure hw trivial

theorem instanceOf_keeps (hw : w.Sound) {a f : Value} :
    Keeps (instanceOf a f) w fun _ _ => True := by
  unfold instanceOf
  refine keeps_get_bind ?_
  split
  · dsimp only
    split
    · exact keeps_throw_bind hw
    · split
      · refine keeps_bind (keeps_lift (Q := fun _ _ => True) hw fun _ _ => trivial)
          fun p w' hg _ => ?_
        split
        · exact keeps_lift hg.1 fun _ _ => trivial
        · exact keeps_throw hg.1
      · exact keeps_pure hw trivial
  · exact keeps_throw hw

theorem hasIn_keeps (hw : w.Sound) {key o : Value} : Keeps (hasIn key o) w fun _ _ => True := by
  unfold hasIn
  refine keeps_get_bind ?_
  split
  · exact keeps_lift hw fun _ _ => trivial
  · exact keeps_throw hw

theorem updateProp_keeps (hw : w.Sound) {base : Value} {key : String} {op : UpdateOp}
    {isPrefix : Bool} : Keeps (updateProp base key op isPrefix) w ValueOk := by
  unfold updateProp
  refine keeps_bind (getProp_keeps hw) fun old w' hg _ => ?_
  refine keeps_bind (setProp_keeps hg.1 trivial) fun _ w'' hg' _ => ?_
  exact keeps_pure hg'.1 trivial

/-- A new closure is allocated; a named function expression's own scope binds it. -/
theorem makeClosure_keeps (hw : w.Sound) {fr : Frame} {k : Nat} :
    Keeps (makeClosure fr k) w ValueOk := by
  unfold makeClosure
  dsimp only
  split
  · -- a named function expression: a scope of its own, the closure, and its name bound there
    let code := fr.code.funcs[k]?.getD default
    let own := w.newScope (some fr.scope)
    let made := own.2.allocFunction code.name (.script code own.1 fr.global)
    have hs : w.Grows own.2 := grows_newScope hw
    have hf : own.2.Grows made.2 := grows_allocFunction hs.1
    have hb : made.2.Grows (made.2.bind own.1 code.name (.obj made.1)) :=
      grows_bind hf.1 (Value.below_obj.mpr allocFunction_lt)
    refine keeps_make_bind hs (keeps_make_bind hf (keeps_modify_bind hb ?_))
    exact keeps_pure hb.1 (hb.below allocFunction_lt)
  · refine keeps_pure_bind (keeps_make_bind (grows_allocFunction hw) ?_)
    exact keeps_pure (grows_allocFunction hw).1 allocFunction_lt

theorem exposeCaller_keeps (hw : w.Sound) {fr : Frame} (hthis : fr.this.Below w.objs.size) :
    Keeps (exposeCaller fr) w fun _ _ => True :=
  keeps_modify (grows_with_ctx hw hw.global hthis)

/-- The prototype `Object` gives new objects is allocated. -/
theorem objectPrototype_keeps (hw : w.Sound) :
    Keeps objectPrototype w fun p w' => p < w'.objs.size := by
  unfold objectPrototype
  refine keeps_get_bind (keeps_bind (keeps_lift (Q := ValueOk) hw fun v hv =>
    hw.toClosed.getProp_below hv) fun ctor w' hg _ => ?_)
  split
  · -- the lookups read the world the run started from
    refine keeps_bind (keeps_lift (Q := ValueOk) hg.1 fun v hv =>
      hg.below (hw.toClosed.getProp_below hv)) fun p w'' hg' hp => ?_
    split
    · exact keeps_pure hg'.1 hp
    · exact keeps_pure hg'.1 (Nat.lt_of_lt_of_le hw.protoObject (hg.trans hg').2)
  · exact keeps_pure hg.1 (Nat.lt_of_lt_of_le hw.protoObject hg.2)

theorem hasOwn_keeps (hw : w.Sound) {this : Value} {key : String} :
    Keeps (Run.hasOwn this key) w fun _ _ => True := by
  unfold Run.hasOwn
  refine keeps_get_bind ?_
  split
  · exact keeps_pure hw trivial
  · exact keeps_pure hw trivial
  · exact keeps_pure hw trivial

theorem classTag_keeps (hw : w.Sound) {this : Value} :
    Keeps (classTag this) w fun _ _ => True := by
  unfold classTag
  refine keeps_get_bind ?_
  split
  all_goals exact keeps_pure hw trivial

theorem bindParams_keeps (hw : w.Sound) {s : ScopeId} {ps : List String} {args : List Value}
    (hargs : ValuesOk args w) : Keeps (bindParams s ps args) w fun _ _ => True := by
  induction ps generalizing args w with
  | nil => exact keeps_pure hw trivial
  | cons p ps ih =>
    -- the parameter takes the first argument, or `undefined` when there is none
    have hhead : (args.headD .undefined).Below w.objs.size := by
      cases args with
      | nil => trivial
      | cons a rest => exact hargs a List.mem_cons_self
    have hb : w.Grows (w.bind s p (args.headD .undefined)) := grows_bind hw hhead
    refine keeps_modify_bind hb (ih hb.1 fun v hv => hb.below (hargs v (List.mem_of_mem_tail hv)))

end Run

end EcmaLite
