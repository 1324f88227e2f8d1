import Mathlib.Tactic.Set
import EcmaLite.Proofs.ProtoChain
import EcmaLite.Proofs.ArrayLayout

/-!
# Sound worlds

A world is *closed* when every reference it stores (property values, array elements, scope
bindings and prototypes) is to an allocated object, and its prototype relation has no cycle. It
is *sound* when moreover the references it starts from (the shared prototypes, the running
global object and the caller's receiver) are allocated.

Each primitive that changes the world keeps soundness, given that what it stores is allocated:
writing or deleting a property (`Sound.put`, `Sound.deleteOwn`), allocating (`Sound.alloc`,
`Sound.allocFunction`, ...), binding in a scope, and relinking a prototype
(`Sound.setProto`). What a sound world gives back, through `getProp`, is allocated
(`Sound.getProp_below`). A fresh world is sound (`start_sound`), and so is one after a new
environment (`Sound.allocGlobal`).
-/

namespace EcmaLite

/-- The value refers to no object from `n` on. -/
def Value.Below (n : Nat) : Value → Prop
  | .obj id => id < n
  | _ => True

/-- An object stores references below `n` only: in its table, its elements and its
prototype. -/
structure Obj.Below (n : Nat) (o : Obj) : Prop where
  props : ∀ kv ∈ o.props, kv.2.Below n
  elems : ∀ es, o.kind = .array es → ∀ j v, Elements.slot es j = some v → v.Below n
  proto : ∀ p, o.proto = some p → p < n

/-- A scope binds values below `n` only. -/
def Scope.Below (n : Nat) (s : Scope) : Prop := ∀ kv ∈ s.vars, kv.2.Below n

namespace Value

variable {n m : Nat} {v : Value}

theorem Below.mono (h : v.Below n) (hnm : n ≤ m) : v.Below m := by
  cases v with
  | obj id => exact Nat.lt_of_lt_of_le h hnm
  | _ => trivial

@[simp] theorem below_obj {id : ObjId} : (Value.obj id).Below n ↔ id < n := Iff.rfl

@[simp] theorem below_undefined : Value.undefined.Below n := trivial
@[simp] theorem below_null : Value.null.Below n := trivial
@[simp] theorem below_bool {b : Bool} : (Value.bool b).Below n := trivial
@[simp] theorem below_str {s : String} : (Value.str s).Below n := trivial
@[simp] theorem below_num {x : Number} : (Value.num x).Below n := trivial

end Value

/-! ## Tables and elements -/

namespace Props

variable {t : List (String × Value)} {k : String} {v : Value} {kv : String × Value}

theorem mem_set (h : kv ∈ set t k v) : kv ∈ t ∨ kv = (k, v) := by
  unfold set at h
  split at h
  · obtain ⟨p, hp, rfl⟩ := List.mem_map.mp h
    by_cases hk : p.1 = k
    · exact .inr (by simp [hk])
    · exact .inl (by simpa [hk] using hp)
  · rcases List.mem_append.mp h with h | h
    · exact .inl h
    · exact .inr (List.mem_singleton.mp h)

theorem mem_of_mem_erase (h : kv ∈ erase t k) : kv ∈ t := (List.mem_filter.mp h).1

theorem exists_mem_of_get? (h : get? t k = some v) : ∃ kv ∈ t, kv.2 = v := by
  obtain ⟨kv, hfind, rfl⟩ := Option.map_eq_some_iff.mp h
  exact ⟨kv, List.mem_of_find?_eq_some hfind, rfl⟩

end Props

namespace Obj

variable {n m : Nat} {o : Obj} {key : String} {v : Value}

theorem Below.mono (h : o.Below n) (hnm : n ≤ m) : o.Below m where
  props kv hkv := (h.props kv hkv).mono hnm
  elems es hes j x hx := (h.elems es hes j x hx).mono hnm
  proto p hp := Nat.lt_of_lt_of_le (h.proto p hp) hnm

@[simp] theorem proto_putOwn : (o.putOwn key v).proto = o.proto := by
  unfold putOwn
  split
  · split
    · split
      · split <;> rfl
      · rfl
    · split
      · split
        · rfl
        · split <;> rfl
      · rfl
  · rfl

@[simp] theorem proto_deleteOwn : (o.deleteOwn key).proto = o.proto := by
  unfold deleteOwn
  split
  · split
    · rfl
    · split
      · split <;> rfl
      · rfl
  · rfl

/-- The parts of an object other than its table and elements are what `Below` also checks. -/
theorem below_of_parts {o' : Obj} (ho : o.Below n) (hproto : o'.proto = o.proto)
    (hprops : ∀ kv ∈ o'.props, kv ∈ o.props ∨ kv.2.Below n)
    (helems : ∀ es', o'.kind = .array es' → ∀ j x, Elements.slot es' j = some x →
      x.Below n ∨ ∃ es, o.kind = .array es ∧ ∃ i, Elements.slot es i = some x) :
    o'.Below n where
  props kv hkv := by
    rcases hprops kv hkv with hmem | hbelow
    · exact ho.props kv hmem
    · exact hbelow
  elems es' hes' j x hx := by
    rcases helems es' hes' j x hx with hbelow | ⟨es, hes, i, hi⟩
    · exact hbelow
    · exact ho.elems es hes i x hi
  proto p hp := ho.proto p (hproto ▸ hp)

/-- Writing `length` keeps or cuts the elements, or adds holes. -/
theorem putOwn_length_slot {es : Array (Option Value)} {cls : ClassTag}
    {props : List (String × Value)} {proto : Option ObjId} :
    ∃ es', (⟨.array es, cls, props, proto⟩ : Obj).putOwn lengthKey v =
      ⟨.array es', cls, props, proto⟩ ∧
      ∀ j x, Elements.slot es' j = some x → Elements.slot es j = some x := by
  have hsame : ∀ j x, Elements.slot es j = some x → Elements.slot es j = some x :=
    fun _ _ h => h
  simp only [putOwn, if_true]
  split
  · split
    · refine ⟨_, rfl, fun j x hx => ?_⟩
      rw [Elements.slot_resize] at hx
      split at hx
      · exact hx
      · cases hx
    · exact ⟨_, rfl, hsame⟩
  · exact ⟨_, rfl, hsame⟩

/-- Deleting empties a slot or erases a table key. -/
theorem deleteOwn_array_slot {es : Array (Option Value)} {cls : ClassTag}
    {props : List (String × Value)} {proto : Option ObjId} :
    ∃ es', ((⟨.array es, cls, props, proto⟩ : Obj).deleteOwn key =
        ⟨.array es', cls, props, proto⟩ ∨
      (⟨.array es, cls, props, proto⟩ : Obj).deleteOwn key =
        ⟨.array es', cls, Props.erase props key, proto⟩) ∧
      ∀ j x, Elements.slot es' j = some x → Elements.slot es j = some x := by
  have hsame : ∀ j x, Elements.slot es j = some x → Elements.slot es j = some x :=
    fun _ _ h => h
  simp only [deleteOwn]
  split
  · exact ⟨es, .inl rfl, hsame⟩
  · split
    · split
      · rename_i i _ hi
        refine ⟨_, .inl rfl, fun j x hx => ?_⟩
        by_cases hji : j = i
        · subst hji
          rw [Elements.slot_set_self hi] at hx
          cases hx
        · rwa [Elements.slot_set_ne hji] at hx
      · exact ⟨es, .inr rfl, hsame⟩
    · exact ⟨es, .inr rfl, hsame⟩

/-- An array whose table and elements come from those of an array below `n`, or are below `n`
themselves, is below `n`. -/
theorem Below.array_of {es es' : Array (Option Value)} {cls : ClassTag}
    {props props' : List (String × Value)} {proto : Option ObjId}
    (ho : (⟨.array es, cls, props, proto⟩ : Obj).Below n)
    (hprops : ∀ kv ∈ props', kv ∈ props ∨ kv.2.Below n)
    (helems : ∀ j x, Elements.slot es' j = some x → x.Below n ∨ Elements.slot es j = some x) :
    (⟨.array es', cls, props', proto⟩ : Obj).Below n := by
  refine below_of_parts ho rfl hprops ?_
  intro es'' hes'' j x hx
  cases hes''
  rcases helems j x hx with hbelow | hslot
  · exact .inl hbelow
  · exact .inr ⟨es, rfl, j, hslot⟩

/-- Writing a value below `n` keeps an object below `n`. -/
theorem Below.putOwn (ho : o.Below n) (hv : v.Below n) : (o.putOwn key v).Below n := by
  obtain ⟨kind, cls, props, proto⟩ := o
  have hset : ∀ kv ∈ Props.set props key v, kv ∈ props ∨ kv.2.Below n := by
    intro kv hkv
    rcases Props.mem_set hkv with hmem | rfl
    · exact .inl hmem
    · exact .inr hv
  have hkeep : ∀ kv ∈ props, kv ∈ props ∨ kv.2.Below n := fun kv hkv => .inl hkv
  cases kind with
  | array es =>
    rcases @putOwn_array_cases es cls props proto key v with
      ⟨rfl, -⟩ | ⟨i, -, hi, h⟩ | ⟨i, -, -, h⟩ | ⟨-, -, h⟩
    · obtain ⟨es', h, hslot⟩ := @putOwn_length_slot v es cls props proto
      rw [h]
      exact ho.array_of hkeep fun j x hx => .inr (hslot j x hx)
    · rw [h]
      refine ho.array_of hkeep fun j x hx => ?_
      by_cases hji : j = i
      · subst hji
        rw [Elements.slot_set_self hi] at hx
        cases hx
        exact .inl hv
      · rw [Elements.slot_set_ne hji] at hx
        exact .inr hx
    · rw [h]
      refine ho.array_of hkeep fun j x hx => ?_
      rw [Elements.slot_push] at hx
      split at hx
      · cases hx
        exact .inl hv
      · rw [Elements.slot_resize] at hx
        split at hx
        · exact .inr hx
        · cases hx
    · rw [h]
      exact ho.array_of hset fun j x hx => .inr hx
  | ordinary =>
    exact below_of_parts ho rfl hset (fun _ h => by cases h)
  | function name body =>
    exact below_of_parts ho rfl hset (fun _ h => by cases h)

/-- Deleting keeps an object below `n`. -/
theorem Below.deleteOwn (ho : o.Below n) : (o.deleteOwn key).Below n := by
  obtain ⟨kind, cls, props, proto⟩ := o
  have herase : ∀ kv ∈ Props.erase props key, kv ∈ props ∨ kv.2.Below n :=
    fun kv hkv => .inl (Props.mem_of_mem_erase hkv)
  cases kind with
  | array es =>
    obtain ⟨es', h | h, hslot⟩ := @deleteOwn_array_slot key es cls props proto
    · rw [h]
      exact ho.array_of (fun kv hkv => .inl hkv) fun j x hx => .inr (hslot j x hx)
    · rw [h]
      exact ho.array_of herase fun j x hx => .inr (hslot j x hx)
  | ordinary =>
    exact below_of_parts ho rfl herase (fun _ h => by cases h)
  | function name body =>
    exact below_of_parts ho rfl herase (fun _ h => by cases h)

/-- What an object below `n` gives for a key is below `n`. -/
theorem Below.getOwn (ho : o.Below n) (h : o.getOwn key = some v) : v.Below n := by
  obtain ⟨kind, cls, props, proto⟩ := o
  have hprops : Props.get? props key = some v → v.Below n := by
    intro hget
    obtain ⟨kv, hmem, rfl⟩ := Props.exists_mem_of_get? hget
    exact ho.props kv hmem
  cases kind with
  | array es =>
    by_cases hl : key = lengthKey
    · simp only [Obj.getOwn, if_pos hl, Option.some.injEq] at h
      subst h
      trivial
    rw [getOwn_array hl] at h
    unfold arrayLookup at h
    split at h
    · split at h
      · exact ho.elems es rfl _ v h
      · exact hprops h
    · exact hprops h
  | ordinary => exact hprops h
  | function name body => exact hprops h

theorem plain_below (cls : ClassTag) {proto : Option ObjId} (h : ∀ p, proto = some p → p < n) :
    (plain cls proto).Below n where
  props kv hkv := by cases hkv
  elems es hes := by cases hes
  proto := h

end Obj

theorem Scope.Below.mono {n m : Nat} {s : Scope} (h : s.Below n) (hnm : n ≤ m) : s.Below m :=
  fun kv hkv => (h kv hkv).mono hnm

namespace World

open Relation

/-- Every stored reference is to an allocated object, and prototypes have no cycle. -/
structure Closed (w : World) : Prop where
  obj : ∀ id, (w.obj id).Below w.objs.size
  scope : ∀ s, (w.scope s).Below w.objs.size
  acyclic : w.Acyclic

/-- A closed world whose shared prototypes, running global object and caller's receiver are
allocated. -/
structure Sound (w : World) : Prop extends w.Closed where
  protoObject : w.protos.object < w.objs.size
  protoFunction : w.protos.function < w.objs.size
  protoArray : w.protos.array < w.objs.size
  global : w.ctx.global < w.objs.size
  callerThis : w.ctx.callerThis.Below w.objs.size

variable {w : World} {id : ObjId} {key : String} {v : Value} {ob : Obj}

theorem Closed.link_lt (hw : w.Closed) {a b : ObjId} (h : w.Link a b) : b < w.objs.size :=
  (hw.obj a).proto b h

/-! ## Closed worlds -/

theorem scope_update {f : Obj → Obj} (s : ScopeId) : (w.update id f).scope s = w.scope s := rfl

theorem Closed.update {f : Obj → Obj} (hw : w.Closed)
    (hf : ∀ ob, ob.Below w.objs.size → (f ob).Below w.objs.size)
    (hproto : ∀ ob, (f ob).proto = ob.proto) : (w.update id f).Closed where
  obj a := by
    rw [size_update]
    by_cases hid : id < w.objs.size
    · rw [obj_update a hid]
      split
      · exact hf _ (hw.obj id)
      · exact hw.obj a
    · rw [obj_update_of_size_le (Nat.le_of_not_lt hid)]
      exact hw.obj a
  scope s := by
    rw [scope_update, size_update]
    exact hw.scope s
  acyclic := hw.acyclic.update hproto

theorem Closed.alloc (hw : w.Closed) (hob : ob.Below w.objs.size) : (w.alloc ob).2.Closed where
  obj a := by
    rw [obj_alloc, size_alloc]
    split
    · exact hob.mono (Nat.le_succ _)
    · exact (hw.obj a).mono (Nat.le_succ _)
  scope s := by
    rw [size_alloc]
    exact (hw.scope s).mono (Nat.le_succ _)
  acyclic := hw.acyclic.alloc (fun _ _ h => hw.link_lt h) hob.proto

theorem Closed.alloc_plain (hw : w.Closed) (cls : ClassTag) {proto : Option ObjId}
    (h : ∀ p, proto = some p → p < w.objs.size) : (w.alloc (Obj.plain cls proto)).2.Closed :=
  hw.alloc (Obj.plain_below cls h)

/-! ## Sound worlds -/

/-- A closed world whose roots are below its size is sound. -/
theorem Closed.sound (hw : w.Closed) (hobj : w.protos.object < w.objs.size)
    (hfun : w.protos.function < w.objs.size) (harr : w.protos.array < w.objs.size)
    (hg : w.ctx.global < w.objs.size) (ht : w.ctx.callerThis.Below w.objs.size) : w.Sound :=
  { hw with protoObject := hobj, protoFunction := hfun, protoArray := harr, global := hg,
            callerThis := ht }

/-- A sound world stays sound when it becomes a closed world with the same roots and at least
as many objects. -/
theorem Sound.of_closed {w' : World} (hw : w.Sound) (hc : w'.Closed)
    (hsize : w.objs.size ≤ w'.objs.size) (hprotos : w'.protos = w.protos) (hctx : w'.ctx = w.ctx) :
    w'.Sound := by
  refine hc.sound ?_ ?_ ?_ ?_ ?_
  · rw [hprotos]; exact Nat.lt_of_lt_of_le hw.protoObject hsize
  · rw [hprotos]; exact Nat.lt_of_lt_of_le hw.protoFunction hsize
  · rw [hprotos]; exact Nat.lt_of_lt_of_le hw.protoArray hsize
  · rw [hctx]; exact Nat.lt_of_lt_of_le hw.global hsize
  · rw [hctx]; exact hw.callerThis.mono hsize

theorem Sound.update {f : Obj → Obj} (hw : w.Sound)
    (hf : ∀ ob, ob.Below w.objs.size → (f ob).Below w.objs.size)
    (hproto : ∀ ob, (f ob).proto = ob.proto) : (w.update id f).Sound :=
  hw.of_closed (hw.toClosed.update hf hproto) (by rw [size_update]) rfl rfl

theorem Sound.put (hw : w.Sound) (hv : v.Below w.objs.size) : (w.put id key v).Sound :=
  hw.update (fun _ hob => hob.putOwn hv) fun _ => Obj.proto_putOwn

theorem Sound.deleteOwn (hw : w.Sound) : (w.update id (·.deleteOwn key)).Sound :=
  hw.update (fun _ hob => hob.deleteOwn) fun _ => Obj.proto_deleteOwn

theorem Sound.alloc (hw : w.Sound) (hob : ob.Below w.objs.size) : (w.alloc ob).2.Sound :=
  hw.of_closed (hw.toClosed.alloc hob) (by rw [size_alloc]; exact Nat.le_succ _) rfl rfl

theorem alloc_fst_lt : (w.alloc ob).1 < (w.alloc ob).2.objs.size := by
  rw [alloc_fst, size_alloc]
  exact Nat.lt_succ_self _

theorem Sound.allocPlain (hw : w.Sound) {proto : Option ObjId}
    (h : ∀ p, proto = some p → p < w.objs.size) : (w.allocPlain proto).2.Sound :=
  hw.alloc (Obj.plain_below .object h)

theorem Sound.allocObject (hw : w.Sound) : w.allocObject.2.Sound :=
  hw.allocPlain fun _ h => by cases h; exact hw.protoObject

theorem Sound.allocArray (hw : w.Sound) {elems : List Value}
    (h : ∀ v ∈ elems, v.Below w.objs.size) : (w.allocArray elems).2.Sound := by
  refine hw.alloc ⟨(fun kv hkv => by cases hkv), ?_, (fun p hp => ?_)⟩
  · intro es hes j x hx
    cases hes
    have hslot : Elements.slot (elems.map some).toArray j = elems[j]? := by
      simp only [Elements.slot, List.getElem?_toArray, List.getElem?_map]
      cases elems[j]? <;> rfl
    rw [hslot] at hx
    exact h x (List.mem_of_getElem? hx)
  · cases hp
    exact hw.protoArray

theorem Sound.allocFunction (hw : w.Sound) (name : String) (body : Callable) :
    (w.allocFunction name body).2.Sound := by
  have hp := hw.allocObject
  refine hp.alloc ⟨?_, (fun es hes => by cases hes), (fun p hproto => ?_)⟩
  · intro kv hkv
    simp only [List.mem_singleton] at hkv
    subst hkv
    exact alloc_fst_lt
  · cases hproto
    exact hp.protoFunction

@[simp] theorem size_put : (w.put id key v).objs.size = w.objs.size := size_update

@[simp] theorem size_allocFunction {name : String} {body : Callable} :
    (w.allocFunction name body).2.objs.size = w.objs.size + 2 := by
  simp only [allocFunction, allocObject, allocPlain, size_alloc]

@[simp] theorem allocFunction_fst {name : String} {body : Callable} :
    (w.allocFunction name body).1 = w.objs.size + 1 := by
  simp only [allocFunction, allocObject, allocPlain, alloc_fst, size_alloc]

@[simp] theorem size_installNative {target : ObjId} {name : String} {k : Native} :
    (w.installNative target name k).objs.size = w.objs.size + 2 := by
  simp only [installNative, size_put, size_allocFunction]

theorem Sound.installNative (hw : w.Sound) (target : ObjId) (name : String) (k : Native) :
    (w.installNative target name k).Sound := by
  refine (hw.allocFunction name (.native k)).put ?_
  show (w.allocFunction name (.native k)).1 < _
  rw [allocFunction_fst, size_allocFunction]
  exact Nat.lt_succ_self _

/-! ## Scopes, context and output -/

/-- A world with the same objects and scopes below its size stays closed. -/
theorem Closed.of_objs_eq {w' : World} (hw : w.Closed) (hobjs : w'.objs = w.objs)
    (hscope : ∀ s, (w'.scope s).Below w.objs.size) : w'.Closed where
  obj a := by
    rw [obj_eq_of_objs_eq hobjs, hobjs]
    exact hw.obj a
  scope s := by
    rw [hobjs]
    exact hscope s
  acyclic := hw.acyclic.of_link_imp fun a b h => by
    simpa only [Link, obj_eq_of_objs_eq hobjs] using h

theorem Sound.of_objs_eq {w' : World} (hw : w.Sound) (hobjs : w'.objs = w.objs)
    (hscope : ∀ s, (w'.scope s).Below w.objs.size) (hprotos : w'.protos = w.protos)
    (hctx : w'.ctx = w.ctx) : w'.Sound :=
  hw.of_closed (hw.toClosed.of_objs_eq hobjs hscope) (by rw [hobjs]) hprotos hctx

theorem Sound.newScope (hw : w.Sound) (outer : Option ScopeId) : (w.newScope outer).2.Sound := by
  refine hw.of_objs_eq rfl (fun s => ?_) rfl rfl
  rw [scope_newScope]
  split
  · intro kv hkv
    cases hkv
  · exact hw.scope s

theorem Sound.bind (hw : w.Sound) {s : ScopeId} {name : String} (hv : v.Below w.objs.size) :
    (w.bind s name v).Sound := by
  refine hw.of_objs_eq rfl (fun s' => ?_) rfl rfl
  rw [scope_bind]
  split
  · intro kv hkv
    rcases Props.mem_set hkv with hmem | rfl
    · exact hw.scope s kv hmem
    · exact hv
  · exact hw.scope s'

theorem Sound.declare (hw : w.Sound) {s : ScopeId} {name : String} : (w.declare s name).Sound := by
  unfold World.declare
  split
  · exact hw
  · exact hw.bind trivial

theorem Sound.with_ctx (hw : w.Sound) {c : Context} (hg : c.global < w.objs.size)
    (ht : c.callerThis.Below w.objs.size) : { w with ctx := c }.Sound :=
  { hw.toClosed with
    protoObject := hw.protoObject, protoFunction := hw.protoFunction, protoArray := hw.protoArray
    global := hg, callerThis := ht }

theorem Sound.with_printed (hw : w.Sound) (out : Array String) : { w with printed := out }.Sound :=
  { hw.toClosed with
    protoObject := hw.protoObject, protoFunction := hw.protoFunction, protoArray := hw.protoArray
    global := hw.global, callerThis := hw.callerThis }

/-! ## Relinking -/

theorem Closed.relink (hw : w.Closed) {o : ObjId} {proto : Option ObjId} (hacyc : (w.relink o proto).Acyclic)
    (hp : ∀ q, proto = some q → q < w.objs.size) : (w.relink o proto).Closed where
  obj a := by
    rw [size_update]
    by_cases ho : o < w.objs.size
    · rw [obj_update a ho]
      split
      · exact ⟨(hw.obj o).props, (hw.obj o).elems, hp⟩
      · exact hw.obj a
    · rw [obj_update_of_size_le (Nat.le_of_not_lt ho)]
      exact hw.obj a
  scope s := by
    rw [scope_update, size_update]
    exact hw.scope s
  acyclic := hacyc

/-- A relink that `setProto` makes to an allocated object keeps the world sound; a refused one
changes nothing. -/
theorem Sound.setProto {o : ObjId} {proto : Option ObjId} {b : Bool} {w' : World} (hw : w.Sound)
    (hp : ∀ q, proto = some q → q < w.objs.size) (h : World.setProto o proto w = .ok b w') :
    w'.Sound := by
  have hacyc : w'.Acyclic := hw.acyclic.setProto h
  cases proto with
  | none =>
    rw [setProto_none_apply] at h
    cases h
    exact hw.of_closed (hw.toClosed.relink hacyc hp) (by rw [size_update]) rfl rfl
  | some p =>
    rcases setProto_some_cases w o p with ⟨_, h'⟩ | ⟨_, _, h'⟩ | ⟨_, _, h'⟩
    all_goals rw [h'] at h
    · cases h
      exact hw
    · cases h
    · cases h
      exact hw.of_closed (hw.toClosed.relink hacyc hp) (by rw [size_update]) rfl rfl

theorem setProto_error_world {o : ObjId} {proto : Option ObjId} {f : Fault} {w' : World}
    (h : World.setProto o proto w = .error f w') : w' = w := by
  cases proto with
  | none => rw [setProto_none_apply] at h; cases h
  | some p =>
    rcases setProto_some_cases w o p with ⟨_, h'⟩ | ⟨_, _, h'⟩ | ⟨_, _, h'⟩
    all_goals rw [h'] at h
    all_goals cases h
    rfl

theorem size_setProto {o : ObjId} {proto : Option ObjId} {b : Bool} {w' : World}
    (h : World.setProto o proto w = .ok b w') : w'.objs.size = w.objs.size := by
  cases proto with
  | none =>
    rw [setProto_none_apply] at h
    cases h
    exact size_update
  | some p =>
    rcases setProto_some_cases w o p with ⟨_, h'⟩ | ⟨_, _, h'⟩ | ⟨_, _, h'⟩
    all_goals rw [h'] at h
    all_goals cases h
    · rfl
    · exact size_update

/-! ## Fresh worlds and environments -/

/-- A new environment's global object, its built-ins and its copy of the object prototype keep
a world sound; the global object is allocated. -/
theorem Sound.allocGlobal (hw : w.Sound) :
    w.allocGlobal.2.Sound ∧ w.allocGlobal.1 < w.allocGlobal.2.objs.size ∧
      w.objs.size ≤ w.allocGlobal.2.objs.size := by
  unfold World.allocGlobal
  dsimp only
  -- name the worlds between the steps: the global object, its two natives, `Object`, the copy
  set g := (w.alloc (Obj.plain .window (some w.protos.object))).1 with hg
  set w1 := (w.alloc (Obj.plain .window (some w.protos.object))).2 with hw1
  have h1 : w1.Sound := hw.alloc (Obj.plain_below _ fun p hp => by cases hp; exact hw.protoObject)
  set w2 := (w1.installNative g "eval" .eval).installNative g "p" .print with hw2
  have h2 : w2.Sound := (h1.installNative _ _ _).installNative _ _ _
  set ctor := (w2.allocFunction "Object" (.native .objectCtor)).1 with hctor
  set w3 := (w2.allocFunction "Object" (.native .objectCtor)).2 with hw3
  have h3 : w3.Sound := h2.allocFunction _ _
  set copy := (w3.alloc ⟨.ordinary, .object, (w3.obj w3.protos.object).props,
    some w3.protos.object⟩).1 with hcopy
  set w4 := (w3.alloc ⟨.ordinary, .object, (w3.obj w3.protos.object).props,
    some w3.protos.object⟩).2 with hw4
  have h4 : w4.Sound := by
    refine h3.alloc ⟨(h3.obj _).props, (fun es hes => by cases hes), fun p hp => ?_⟩
    cases hp
    exact h3.protoObject
  have hsize : w4.objs.size = w.objs.size + 8 := by
    simp only [hw4, hw3, hw2, hw1, size_alloc, size_allocFunction, size_installNative]
  have hg4 : g < w4.objs.size := by
    rw [hsize, hg, alloc_fst]
    show w.objs.size < w.objs.size + 8
    omega
  have hctor4 : ctor < w4.objs.size := by
    rw [hsize, hctor, allocFunction_fst, hw2, size_installNative, size_installNative, hw1,
      size_alloc]
    show w.objs.size + 1 + 2 + 2 + 1 < w.objs.size + 8
    omega
  have hcopy4 : copy < w4.objs.size := by
    rw [hcopy, hw4, alloc_fst, size_alloc]
    exact Nat.lt_succ_self _
  refine ⟨?_, ?_, ?_⟩
  · exact (((((h4.put (Value.below_obj.mpr hcopy4)).put
      (Value.below_obj.mpr (by simpa using hctor4))).put Value.below_undefined).put
      Value.below_num).put Value.below_num).put (Value.below_obj.mpr (by simpa using hg4))
  · simpa using hg4
  · simp only [size_put, hsize]
    omega

/-- A world before anything is allocated is closed. -/
theorem empty_closed {protos : Protos} {limits : Limits} {ctx : Context} :
    (⟨#[], #[], #[], protos, limits, ctx⟩ : World).Closed where
  obj a := by
    rw [obj_of_size_le (Nat.zero_le a)]
    exact ⟨(fun kv hkv => by cases hkv), (fun es hes => by cases hes), fun p hp => by cases hp⟩
  scope s kv hkv := by
    have hempty : (default : Scope).vars = [] := rfl
    simp [scope, hempty] at hkv
  acyclic a h := by
    obtain ⟨b, hab, -⟩ := TransGen.head'_iff.mp h
    simp [Link, obj] at hab

/-- The world every session starts from is sound. -/
theorem start_sound (limits : Limits) : (World.start limits).Sound := by
  unfold World.start
  dsimp only
  -- the three shared prototypes, allocated into an empty world
  set w0 : World := ⟨#[], #[], #[], ⟨0, 1, 2⟩, limits, default⟩ with hw0
  set w1 := (w0.alloc (Obj.plain .object none)).2 with hw1
  have h1 : w1.Closed := empty_closed.alloc_plain _ fun p hp => by cases hp
  set w2 := (w1.alloc (Obj.plain .function (some (w0.alloc (Obj.plain .object none)).1))).2
    with hw2
  have h2 : w2.Closed := h1.alloc_plain _ fun p hp => by
    cases hp
    exact Nat.zero_lt_one
  set w3 := (w2.alloc (Obj.plain .array (some (w0.alloc (Obj.plain .object none)).1))).2 with hw3
  have h3 : w3.Closed := h2.alloc_plain _ fun p hp => by
    cases hp
    exact Nat.zero_lt_two
  have hsize : w3.objs.size = 3 := by
    simp only [hw3, hw2, hw1, size_alloc, hw0, List.size_toArray, List.length_nil]
  -- the prototypes are the objects 0, 1 and 2, and the running global object is 0 for now
  have hs : { w3 with protos := ⟨0, 1, 2⟩ }.Sound := by
    refine Closed.sound (h3.of_objs_eq rfl h3.scope) ?_ ?_ ?_ ?_ trivial
    all_goals
      show _ < w3.objs.size
      rw [hsize]
    · exact (by decide : (0 : Nat) < 3)
    · exact (by decide : (1 : Nat) < 3)
    · exact (by decide : (2 : Nat) < 3)
    · exact (by decide : (0 : Nat) < 3)
  exact ((hs.installNative _ _ _).installNative _ _ _).installNative _ _ _

/-- What a walk up the prototypes finds, some object of the world has. -/
theorem findUp_some {α : Type} {visit : Obj → Option α} {r : Nat} {a : ObjId} {x : α}
    (h : w.findUp visit r a = .ok (some x)) : ∃ b, visit (w.obj b) = some x := by
  induction r generalizing a with
  | zero =>
    unfold findUp at h
    dsimp only at h
    split at h
    · cases h
      exact ⟨a, ‹_›⟩
    · split at h <;> cases h
  | succ r ih =>
    unfold findUp at h
    dsimp only at h
    split at h
    · cases h
      exact ⟨a, ‹_›⟩
    · split at h
      · cases h
      · exact ih h

/-- What a closed world gives for a property, along prototypes, is allocated. -/
theorem Closed.getProp_below (hw : w.Closed) {a : ObjId} (h : w.getProp a key = .ok v) :
    v.Below w.objs.size := by
  unfold getProp at h
  cases hf : w.findUp (·.getOwn key) w.limits.maxChain a with
  | error f => rw [hf] at h; cases h
  | ok r =>
    rw [hf] at h
    cases h
    cases r with
    | none => trivial
    | some x =>
      obtain ⟨b, hb⟩ := findUp_some hf
      exact (hw.obj b).getOwn hb

theorem Sound.resolve_below (hw : w.Sound) {s : ScopeId} {name : String}
    (h : w.resolve s name = some v) : v.Below w.objs.size := by
  obtain ⟨s', -, hget⟩ := Option.bind_eq_some_iff.mp h
  obtain ⟨kv, hmem, rfl⟩ := Props.exists_mem_of_get? hget
  exact hw.scope s' kv hmem

end World

end EcmaLite
