import EcmaLite.Proofs.Stored
import EcmaLite.Proofs.Keeps

/-!
# Worlds that keep the shared prototypes out of reach

The three prototypes every environment shares are reached only as prototype links: no value
that code can hold is one of them. A world is *sealed* against the prototypes `P`
(`World.Sealed`) when no object stores one of them and no script function closes over one as
its global object, no scope binds one, the caller's receiver is none of them, and the shared
objects themselves are still the objects `O` they were. Code *runs* sealed (`World.Running`)
when moreover the running global object is no shared prototype.

Each change a run makes to the world keeps it sealed, given that what it stores is no shared
prototype and that the object it writes is none either; since the shared objects are never
written, they stay as they were. Each lookup gives a value that is no shared prototype. The
lemmas at the end state this for every step of the machine that touches the world, in the
`Keeps` form the machine's induction takes them in.
-/

namespace EcmaLite

/-- Object `id` is one of the shared prototypes `P`. -/
def Protos.Has (P : Protos) (id : ObjId) : Prop := id = P.object ∨ id = P.function ∨ id = P.array

/-- The value is none of the shared prototypes `P`. -/
def Value.NotShared (P : Protos) : Value → Prop
  | .obj id => ¬ P.Has id
  | _ => True

namespace Value

variable {P : Protos}

@[simp] theorem notShared_obj {id : ObjId} : (Value.obj id).NotShared P ↔ ¬ P.Has id := Iff.rfl
@[simp] theorem notShared_undefined : Value.undefined.NotShared P := trivial
@[simp] theorem notShared_null : Value.null.NotShared P := trivial
@[simp] theorem notShared_bool {b : Bool} : (Value.bool b).NotShared P := trivial
@[simp] theorem notShared_str {s : String} : (Value.str s).NotShared P := trivial
@[simp] theorem notShared_num {x : Number} : (Value.num x).NotShared P := trivial

end Value

namespace Obj

variable {P : Protos} {o : Obj} {key : String} {v : Value} {name : String} {c : Callable}

/-- What the object stores is no shared prototype, and as a script function it closes over no
shared prototype as its global object. -/
structure Seals (P : Protos) (o : Obj) : Prop where
  stored : ∀ x, o.Stores x → x.NotShared P
  script : ∀ name code sc g, o.kind = .function name (.script code sc g) → ¬ P.Has g

theorem putOwn_kind_function (h : (o.putOwn key v).kind = .function name c) :
    o.kind = .function name c := by
  obtain ⟨kind, cls, props, proto⟩ := o
  cases kind with
  | array es =>
    -- an array stays an array
    rcases @putOwn_array_cases es cls props proto key v with
      ⟨-, es', hput⟩ | ⟨_, -, -, hput⟩ | ⟨_, -, -, hput⟩ | ⟨-, -, hput⟩ <;>
      rw [hput] at h <;> cases h
  | ordinary => exact h
  | function n b => exact h

theorem deleteOwn_kind_function (h : (o.deleteOwn key).kind = .function name c) :
    o.kind = .function name c := by
  obtain ⟨kind, cls, props, proto⟩ := o
  cases kind with
  | array es =>
    obtain ⟨es', hdel | hdel, -⟩ := @deleteOwn_array_slot key es cls props proto <;>
      rw [hdel] at h <;> cases h
  | ordinary => exact h
  | function n b => exact h

theorem Seals.putOwn (ho : o.Seals P) (hv : v.NotShared P) : (o.putOwn key v).Seals P where
  stored x hx := by
    rcases stores_putOwn hx with hold | rfl
    · exact ho.stored x hold
    · exact hv
  script name code sc g hk := ho.script name code sc g (putOwn_kind_function hk)

theorem Seals.deleteOwn (ho : o.Seals P) : (o.deleteOwn key).Seals P where
  stored x hx := ho.stored x (stores_deleteOwn hx)
  script name code sc g hk := ho.script name code sc g (deleteOwn_kind_function hk)

theorem Seals.relink (ho : o.Seals P) {proto : Option ObjId} : { o with proto := proto }.Seals P :=
  ⟨ho.stored, ho.script⟩

theorem seals_plain {cls : ClassTag} {proto : Option ObjId} : (plain cls proto).Seals P where
  stored _ hx := absurd hx not_stores_plain
  script _ _ _ _ hk := by cases hk

end Obj

namespace World

/-- The shared prototypes `P` are out of reach in `w` and are still the objects `O` has:
allocated, stored by no object, closed over by no script function, bound in no scope, and not
the caller's receiver. -/
structure Sealed (P : Protos) (O : ObjId → Obj) (w : World) : Prop where
  protos : w.protos = P
  shared : ∀ p, P.Has p → w.obj p = O p
  allocated : ∀ p, P.Has p → p < w.objs.size
  objs : ∀ id, (w.obj id).Seals P
  bound : ∀ s, ∀ kv ∈ (w.scope s).vars, kv.2.NotShared P
  callerThis : w.ctx.callerThis.NotShared P

variable {P : Protos} {O : ObjId → Obj} {w : World} {id : ObjId} {key : String} {v : Value}

/-- No object allocated from now on is a shared prototype. -/
theorem Sealed.not_has_of_le (hw : w.Sealed P O) {i : ObjId} (h : w.objs.size ≤ i) :
    ¬ P.Has i :=
  fun hp => absurd (hw.allocated _ hp) (Nat.not_lt.mpr h)

theorem Sealed.fresh (hw : w.Sealed P O) : ¬ P.Has w.objs.size :=
  hw.not_has_of_le (Nat.le_refl _)

theorem Sealed.update {f : Obj → Obj} (hw : w.Sealed P O) (hid : ¬ P.Has id)
    (hf : ∀ o : Obj, o.Seals P → (f o).Seals P) : (w.update id f).Sealed P O where
  protos := hw.protos
  shared p hp := by
    rw [obj_update_ne (show p ≠ id from fun h => hid (h ▸ hp))]
    exact hw.shared p hp
  allocated p hp := by
    rw [size_update]
    exact hw.allocated p hp
  objs a := by
    by_cases hlt : id < w.objs.size
    · rw [obj_update a hlt]
      split
      · exact hf _ (hw.objs id)
      · exact hw.objs a
    · rw [obj_update_of_size_le (Nat.le_of_not_lt hlt)]
      exact hw.objs a
  bound := hw.bound
  callerThis := hw.callerThis

theorem Sealed.put (hw : w.Sealed P O) (hid : ¬ P.Has id) (hv : v.NotShared P) :
    (w.put id key v).Sealed P O :=
  hw.update hid fun _ ho => ho.putOwn hv

theorem Sealed.deleteOwn (hw : w.Sealed P O) (hid : ¬ P.Has id) :
    (w.update id (·.deleteOwn key)).Sealed P O :=
  hw.update hid fun _ ho => ho.deleteOwn

theorem Sealed.relink (hw : w.Sealed P O) (hid : ¬ P.Has id) {proto : Option ObjId} :
    (w.relink id proto).Sealed P O :=
  hw.update hid fun _ ho => ho.relink

theorem Sealed.alloc (hw : w.Sealed P O) {ob : Obj} (hob : ob.Seals P) :
    (w.alloc ob).2.Sealed P O where
  protos := hw.protos
  shared p hp := by
    rw [obj_alloc_old (hw.allocated p hp)]
    exact hw.shared p hp
  allocated p hp := by
    rw [size_alloc]
    exact Nat.lt_succ_of_lt (hw.allocated p hp)
  objs a := by
    rw [obj_alloc]
    split
    · exact hob
    · exact hw.objs a
  bound := hw.bound
  callerThis := hw.callerThis

theorem Sealed.allocPlain (hw : w.Sealed P O) {proto : Option ObjId} :
    (w.allocPlain proto).2.Sealed P O :=
  hw.alloc Obj.seals_plain

theorem Sealed.allocObject (hw : w.Sealed P O) : w.allocObject.2.Sealed P O :=
  hw.allocPlain

theorem Sealed.allocArray (hw : w.Sealed P O) {elems : List Value}
    (h : ∀ x ∈ elems, x.NotShared P) : (w.allocArray elems).2.Sealed P O := by
  refine hw.alloc ⟨fun x hx => ?_, fun _ _ _ _ hk => by cases hk⟩
  rcases hx with ⟨kv, hkv, -⟩ | ⟨es, hes, j, hj⟩
  · cases hkv
  · cases hes
    rw [Elements.slot_map_some] at hj
    exact h x (List.mem_of_getElem? hj)

/-- A new function stores only its fresh `prototype` object, and closes over what its body
says. -/
theorem Sealed.allocFunction (hw : w.Sealed P O) {name : String} {body : Callable}
    (hbody : ∀ code sc g, body = .script code sc g → ¬ P.Has g) :
    (w.allocFunction name body).2.Sealed P O := by
  have hp := hw.allocObject
  refine hp.alloc ⟨fun x hx => ?_, fun n code sc g hk => ?_⟩
  · rcases hx with ⟨kv, hkv, rfl⟩ | ⟨es, hes, -⟩
    · simp only [List.mem_singleton] at hkv
      subst hkv
      exact hw.fresh
    · cases hes
  · cases hk
    exact hbody code sc g rfl

theorem Sealed.installNative (hw : w.Sealed P O) {target : ObjId} (htarget : ¬ P.Has target)
    {name : String} {k : Native} : (w.installNative target name k).Sealed P O := by
  have hf : (w.allocFunction name (.native k)).2.Sealed P O :=
    hw.allocFunction fun _ _ _ h => by cases h
  refine hf.put htarget ?_
  show ¬ P.Has (w.allocFunction name (.native k)).1
  rw [allocFunction_fst]
  exact hw.not_has_of_le (Nat.le_succ _)

theorem Sealed.newScope (hw : w.Sealed P O) {outer : Option ScopeId} :
    (w.newScope outer).2.Sealed P O where
  protos := hw.protos
  shared := hw.shared
  allocated := hw.allocated
  objs := hw.objs
  bound s kv hkv := by
    rw [scope_newScope] at hkv
    split at hkv
    · cases hkv
    · exact hw.bound s kv hkv
  callerThis := hw.callerThis

theorem Sealed.bind (hw : w.Sealed P O) {s : ScopeId} {name : String} (hv : v.NotShared P) :
    (w.bind s name v).Sealed P O where
  protos := hw.protos
  shared := hw.shared
  allocated := hw.allocated
  objs := hw.objs
  bound s' kv hkv := by
    rw [scope_bind] at hkv
    split at hkv
    · rcases Props.mem_set hkv with hmem | rfl
      · exact hw.bound s kv hmem
      · exact hv
    · exact hw.bound s' kv hkv
  callerThis := hw.callerThis

theorem Sealed.declare (hw : w.Sealed P O) {s : ScopeId} {name : String} :
    (w.declare s name).Sealed P O := by
  unfold World.declare
  split
  · exact hw
  · exact hw.bind trivial

theorem Sealed.with_ctx (hw : w.Sealed P O) {c : Context} (ht : c.callerThis.NotShared P) :
    { w with ctx := c }.Sealed P O :=
  ⟨hw.protos, hw.shared, hw.allocated, hw.objs, hw.bound, ht⟩

theorem Sealed.with_printed (hw : w.Sealed P O) {out : Array String} :
    { w with printed := out }.Sealed P O :=
  ⟨hw.protos, hw.shared, hw.allocated, hw.objs, hw.bound, hw.callerThis⟩

/-- What a sealed world gives for a property, along prototypes, is no shared prototype. -/
theorem Sealed.getProp (hw : w.Sealed P O) {a : ObjId} (h : w.getProp a key = .ok v) :
    v.NotShared P := by
  rcases getProp_stored h with rfl | ⟨n, rfl⟩ | ⟨b, hb⟩
  · trivial
  · trivial
  · exact (hw.objs b).stored v hb

theorem Sealed.resolve (hw : w.Sealed P O) {s : ScopeId} {name : String}
    (h : w.resolve s name = some v) : v.NotShared P := by
  obtain ⟨s', kv, hkv, rfl⟩ := resolve_bound h
  exact hw.bound s' kv hkv

/-- Relinking an object that is no shared prototype keeps a world sealed; a refused or failed
relink changes nothing. -/
theorem Sealed.setProto (hw : w.Sealed P O) (hid : ¬ P.Has id) {proto : Option ObjId} {b : Bool}
    {w' : World} (h : World.setProto id proto w = .ok b w') : w'.Sealed P O := by
  cases proto with
  | none =>
    rw [setProto_none_apply] at h
    cases h
    exact hw.relink hid
  | some p =>
    rcases setProto_some_cases w id p with ⟨_, h'⟩ | ⟨_, _, h'⟩ | ⟨_, _, h'⟩
    all_goals rw [h'] at h
    · cases h
      exact hw
    · cases h
    · cases h
      exact hw.relink hid

/-- A new environment keeps a world sealed: its global object, built-ins and `Object` are
fresh, and its copy of the object prototype's table stores what the shared prototype does. -/
theorem Sealed.allocGlobal (hw : w.Sealed P O) :
    w.allocGlobal.2.Sealed P O ∧ ¬ P.Has w.allocGlobal.1 := by
  unfold World.allocGlobal
  dsimp only
  set g := (w.alloc (Obj.plain .window (some w.protos.object))).1 with hg
  set w1 := (w.alloc (Obj.plain .window (some w.protos.object))).2 with hw1
  have hgfresh : ¬ P.Has g := hw.fresh
  have h1 : w1.Sealed P O := hw.alloc Obj.seals_plain
  set w2 := (w1.installNative g "eval" .eval).installNative g "p" .print with hw2
  have h2 : w2.Sealed P O := (h1.installNative hgfresh).installNative hgfresh
  set ctor := (w2.allocFunction "Object" (.native .objectCtor)).1 with hctor
  set w3 := (w2.allocFunction "Object" (.native .objectCtor)).2 with hw3
  have hctorfresh : ¬ P.Has ctor := by
    rw [hctor, allocFunction_fst]
    exact h2.not_has_of_le (Nat.le_succ _)
  have h3 : w3.Sealed P O := h2.allocFunction fun _ _ _ h => by cases h
  -- the copy's table is the shared prototype's, so it stores what that one does
  set copy := (w3.alloc ⟨.ordinary, .object, (w3.obj w3.protos.object).props,
    some w3.protos.object⟩).1 with hcopy
  set w4 := (w3.alloc ⟨.ordinary, .object, (w3.obj w3.protos.object).props,
    some w3.protos.object⟩).2 with hw4
  have hcopyfresh : ¬ P.Has copy := h3.fresh
  have h4 : w4.Sealed P O := by
    refine h3.alloc ⟨fun x hx => ?_, fun _ _ _ _ hk => by cases hk⟩
    rcases hx with hprops | ⟨es, hes, -⟩
    · exact (h3.objs w3.protos.object).stored x (.inl hprops)
    · cases hes
  refine ⟨?_, hgfresh⟩
  exact (((((h4.put hctorfresh (Value.notShared_obj.mpr hcopyfresh)).put hgfresh
    (Value.notShared_obj.mpr hctorfresh)).put hgfresh Value.notShared_undefined).put hgfresh
    Value.notShared_num).put hgfresh Value.notShared_num).put hgfresh
    (Value.notShared_obj.mpr hgfresh)

/-- Code runs sealed: the world is sealed and the running global object is no shared
prototype. -/
structure Running (P : Protos) (O : ObjId → Obj) (w : World) : Prop extends w.Sealed P O where
  global : ¬ P.Has w.ctx.global

/-- A change that keeps a world sealed and the running global object keeps code running
sealed. -/
theorem Running.of_sealed {w' : World} (hw : w.Running P O) (h : w'.Sealed P O)
    (hg : w'.ctx.global = w.ctx.global) : w'.Running P O :=
  ⟨h, hg ▸ hw.global⟩

end World

namespace Run

open World

variable {P : Protos} {O : ObjId → Obj} {w : World} {α β : Type}

/-- Running `x` from `w` keeps code running sealed against `P` with shared objects `O`, and
what it returns satisfies `Q`. -/
abbrev Seals (P : Protos) (O : ObjId → Obj) (x : Run α) (w : World) (Q : α → World → Prop) :
    Prop :=
  EcmaLite.Keeps (World.Running P O) (fun _ => 0) x w Q

theorem Running.grows {w' : World} (h : w'.Running P O) :
    Grows (World.Running P O) (fun _ => 0) w w' :=
  ⟨h, Nat.le_refl 0⟩

theorem seals_lift {Q : α → World → Prop} {e : Except Fault α} (hw : w.Running P O)
    (h : ∀ a, e = .ok a → Q a w) : Seals P O (lift e) w Q := by
  cases e with
  | error f => exact keeps_throw hw
  | ok a => exact keeps_pure hw (h a rfl)

/-- A world change that keeps the world sealed and the running global object. -/
theorem seals_modify {f : World → World} (hw : w.Running P O) (hf : (f w).Sealed P O)
    (hg : (f w).ctx.global = w.ctx.global) :
    Seals P O (modify f : Run PUnit) w fun _ _ => True :=
  keeps_modify (Running.grows (hw.of_sealed hf hg))

theorem text_seals (hw : w.Running P O) {v : Value} : Seals P O (text v) w fun _ _ => True :=
  keeps_pure hw trivial

theorem getProp_seals (hw : w.Running P O) {base : Value} {key : String} :
    Seals P O (Run.getProp base key) w fun v _ => v.NotShared P := by
  unfold Run.getProp
  refine keeps_get_bind ?_
  cases base with
  | obj id => exact seals_lift hw fun v hv => hw.getProp hv
  | undefined => exact keeps_throw hw
  | null => exact keeps_throw hw
  | str s =>
    dsimp only
    split
    · exact keeps_pure hw trivial
    · split
      · rename_i i _
        refine keeps_pure hw ?_
        cases s.toList[i]? <;> trivial
      · exact keeps_pure hw trivial
  | bool b => exact keeps_pure hw trivial
  | num x => exact keeps_pure hw trivial

theorem getElem_seals (hw : w.Running P O) {base key : Value} :
    Seals P O (Run.getElem base key) w fun v _ => v.NotShared P := by
  unfold Run.getElem
  refine keeps_get_bind ?_
  have hlookup : ∀ id, Seals P O (lift (w.getProp id (w.text key))) w fun v _ => v.NotShared P :=
    fun id => seals_lift hw fun v hv => hw.getProp hv
  split
  · rename_i id i
    split
    · rename_i es hes
      -- an array serves a stored element directly
      split
      · rename_i v hv
        refine keeps_pure hw ?_
        split at hv
        · exact (hw.objs id).stored v (.inr ⟨es, hes, _, hv⟩)
        · cases hv
      · exact hlookup id
    · exact hlookup id
  · exact hlookup _
  · exact getProp_seals hw

theorem setProp_seals (hw : w.Running P O) {base v : Value} {key : String}
    (hbase : base.NotShared P) (hv : v.NotShared P) :
    Seals P O (Run.setProp base key v) w fun _ _ => True := by
  unfold Run.setProp
  cases base with
  | obj id => exact seals_modify hw (hw.put hbase hv) rfl
  | undefined => exact keeps_throw hw
  | null => exact keeps_throw hw
  | _ => exact keeps_pure hw trivial

theorem deleteProp_seals (hw : w.Running P O) {base : Value} {key : String}
    (hbase : base.NotShared P) : Seals P O (Run.deleteProp base key) w fun _ _ => True := by
  unfold Run.deleteProp
  cases base with
  | obj id =>
    have hd : (w.update id (·.deleteOwn key)).Running P O := hw.of_sealed (hw.deleteOwn hbase) rfl
    exact keeps_modify_bind (Running.grows hd) (keeps_pure hd trivial)
  | undefined => exact keeps_throw hw
  | null => exact keeps_throw hw
  | _ => exact keeps_pure hw trivial

theorem getVar_seals (hw : w.Running P O) {fr : Frame} {name : String} :
    Seals P O (getVar fr name) w fun v _ => v.NotShared P := by
  unfold getVar
  refine keeps_get_bind ?_
  split
  · exact keeps_pure hw (hw.resolve ‹_›)
  · exact seals_lift hw fun v hv => hw.getProp hv

theorem setVar_seals (hw : w.Running P O) {fr : Frame} (hfr : ¬ P.Has fr.global) {name : String}
    {v : Value} (hv : v.NotShared P) : Seals P O (setVar fr name v) w fun _ _ => True := by
  unfold setVar
  refine seals_modify hw ?_ ?_
  · split
    · exact hw.bind hv
    · exact hw.put hfr hv
  · split <;> rfl

theorem typeOfVar_seals (hw : w.Running P O) {fr : Frame} {name : String} :
    Seals P O (typeOfVar fr name) w fun _ _ => True := by
  unfold typeOfVar
  refine keeps_get_bind ?_
  split
  · exact keeps_pure hw trivial
  · refine keeps_bind (seals_lift (Q := fun _ _ => True) hw fun _ _ => trivial)
      fun b w' hg _ => ?_
    split
    · refine keeps_bind (seals_lift (Q := fun _ _ => True) hg.1 fun _ _ => trivial)
        fun _ w'' hg' _ => ?_
      exact keeps_pure hg'.1 trivial
    · exact keeps_pure hg.1 trivial

theorem add_seals (hw : w.Running P O) {a b : Value} :
    Seals P O (add a b) w fun v _ => v.NotShared P := by
  unfold add
  refine keeps_get_bind ?_
  split
  · exact keeps_pure hw trivial
  · exact keeps_pure hw trivial
  · exact keeps_pure hw trivial
  · split
    · exact keeps_pure hw trivial
    · exact keeps_pure hw trivial

theorem instanceOf_seals (hw : w.Running P O) {a f : Value} :
    Seals P O (instanceOf a f) w fun _ _ => True := by
  unfold instanceOf
  refine keeps_get_bind ?_
  split
  · dsimp only
    split
    · exact keeps_throw_bind hw
    · split
      · refine keeps_bind (seals_lift (Q := fun _ _ => True) hw fun _ _ => trivial)
          fun p w' hg _ => ?_
        split
        · exact seals_lift hg.1 fun _ _ => trivial
        · exact keeps_throw hg.1
      · exact keeps_pure hw trivial
  · exact keeps_throw hw

theorem hasIn_seals (hw : w.Running P O) {key o : Value} :
    Seals P O (hasIn key o) w fun _ _ => True := by
  unfold hasIn
  refine keeps_get_bind ?_
  split
  · exact seals_lift hw fun _ _ => trivial
  · exact keeps_throw hw

theorem updateProp_seals (hw : w.Running P O) {base : Value} (hbase : base.NotShared P)
    {key : String} {op : UpdateOp} {isPrefix : Bool} :
    Seals P O (updateProp base key op isPrefix) w fun v _ => v.NotShared P := by
  unfold updateProp
  refine keeps_bind (getProp_seals hw) fun old w' hg _ => ?_
  refine keeps_bind (setProp_seals hg.1 hbase trivial) fun _ w'' hg' _ => ?_
  exact keeps_pure hg'.1 trivial

/-- A new closure is a fresh object, closing over the frame's global object; a named function
expression's own scope binds it. -/
theorem makeClosure_seals (hw : w.Running P O) {fr : Frame} (hfr : ¬ P.Has fr.global) {k : Nat} :
    Seals P O (makeClosure fr k) w fun v _ => v.NotShared P := by
  unfold makeClosure
  dsimp only
  have hbody : ∀ {code : Code} {scope : ScopeId} c sc g,
      Callable.script code scope fr.global = .script c sc g → ¬ P.Has g := by
    intro code scope c sc g h
    cases h
    exact hfr
  split
  · -- a named function expression: a scope of its own, the closure, and its name bound there
    let code := fr.code.funcs[k]?.getD default
    let own := w.newScope (some fr.scope)
    let made := own.2.allocFunction code.name (.script code own.1 fr.global)
    have hs : own.2.Running P O := hw.of_sealed hw.newScope rfl
    have hf : made.2.Running P O := hs.of_sealed (hs.allocFunction hbody) rfl
    have hfresh : ¬ P.Has made.1 := by
      show ¬ P.Has (own.2.allocFunction code.name (.script code own.1 fr.global)).1
      rw [allocFunction_fst]
      exact hs.not_has_of_le (Nat.le_succ _)
    have hb : (made.2.bind own.1 code.name (.obj made.1)).Running P O :=
      hf.of_sealed (hf.bind (Value.notShared_obj.mpr hfresh)) rfl
    refine keeps_modifyGet_bind (Running.grows hs) (keeps_modifyGet_bind (Running.grows hf)
      (keeps_modify_bind (Running.grows hb) ?_))
    exact keeps_pure hb hfresh
  · have hf : (w.allocFunction (fr.code.funcs[k]?.getD default).name
        (.script (fr.code.funcs[k]?.getD default) fr.scope fr.global)).2.Running P O :=
      hw.of_sealed (hw.allocFunction hbody) rfl
    refine keeps_pure_bind (keeps_modifyGet_bind (Running.grows hf) (keeps_pure hf ?_))
    show ¬ P.Has (w.allocFunction _ _).1
    rw [allocFunction_fst]
    exact hw.not_has_of_le (Nat.le_succ _)

theorem exposeCaller_seals (hw : w.Running P O) {fr : Frame} (hthis : fr.this.NotShared P) :
    Seals P O (exposeCaller fr) w fun _ _ => True :=
  seals_modify hw (hw.with_ctx hthis) rfl

theorem objectPrototype_seals (hw : w.Running P O) :
    Seals P O objectPrototype w fun _ _ => True := by
  unfold objectPrototype
  refine keeps_get_bind (keeps_bind (seals_lift (Q := fun _ _ => True) hw fun _ _ => trivial)
    fun ctor w' hg _ => ?_)
  split
  · refine keeps_bind (seals_lift (Q := fun _ _ => True) hg.1 fun _ _ => trivial)
      fun p w'' hg' _ => ?_
    split
    · exact keeps_pure hg'.1 trivial
    · exact keeps_pure hg'.1 trivial
  · exact keeps_pure hg.1 trivial

theorem hasOwn_seals (hw : w.Running P O) {this : Value} {key : String} :
    Seals P O (Run.hasOwn this key) w fun _ _ => True := by
  unfold Run.hasOwn
  refine keeps_get_bind ?_
  split
  all_goals exact keeps_pure hw trivial

theorem classTag_seals (hw : w.Running P O) {this : Value} :
    Seals P O (classTag this) w fun _ _ => True := by
  unfold classTag
  refine keeps_get_bind ?_
  split
  all_goals exact keeps_pure hw trivial

theorem bindParams_seals (hw : w.Running P O) {s : ScopeId} {ps : List String}
    {args : List Value} (hargs : ∀ v ∈ args, v.NotShared P) :
    Seals P O (bindParams s ps args) w fun _ _ => True := by
  induction ps generalizing args w with
  | nil => exact keeps_pure hw trivial
  | cons p ps ih =>
    have hhead : (args.headD .undefined).NotShared P := by
      cases args with
      | nil => trivial
      | cons a rest => exact hargs a List.mem_cons_self
    have hb : (w.bind s p (args.headD .undefined)).Running P O := hw.of_sealed (hw.bind hhead) rfl
    exact keeps_modify_bind (Running.grows hb)
      (ih hb fun v hv => hargs v (List.mem_of_mem_tail hv))

end Run

end EcmaLite
