import EcmaLite.Realm

/-!
# The store's access lemmas

How reading an object or a scope of a `World` sees the world-changing operations: an update
changes one object, an allocation adds one at the end, and scope operations leave the objects
alone. Later developments rewrite with these instead of unfolding the operations.
-/

namespace EcmaLite

/-- Running a step that first reads the world. -/
theorem Run.get_bind_apply {α : Type} {w : World} (f : World → Run α) :
    (get >>= f) w = f w w := rfl

@[simp] theorem Obj.default_proto : (default : Obj).proto = none := rfl

namespace World

variable {w : World} {id id' : ObjId} {f : Obj → Obj} {o : Obj}

@[simp] theorem size_update : (w.update id f).objs.size = w.objs.size := by
  simp [update]

theorem obj_update_self (h : id < w.objs.size) : (w.update id f).obj id = f (w.obj id) := by
  simp only [update, obj, Array.getElem?_modify]
  simp [h]

theorem obj_update_ne (h : id' ≠ id) : (w.update id f).obj id' = w.obj id' := by
  simp only [update, obj, Array.getElem?_modify]
  rw [if_neg (Ne.symm h)]

theorem obj_update (id' : ObjId) (h : id < w.objs.size) :
    (w.update id f).obj id' = if id' = id then f (w.obj id) else w.obj id' := by
  split
  · subst id'
    exact obj_update_self h
  · exact obj_update_ne ‹_›

theorem obj_of_size_le (h : w.objs.size ≤ id) : w.obj id = default := by
  simp [obj, h]

/-- An update of an id that was never allocated changes nothing. -/
theorem obj_update_of_size_le (h : w.objs.size ≤ id) : (w.update id f).obj id' = w.obj id' := by
  by_cases hid : id' = id
  · subst hid
    rw [obj_of_size_le (by simpa using h), obj_of_size_le h]
  · exact obj_update_ne hid

@[simp] theorem alloc_fst : (w.alloc o).1 = w.objs.size := rfl

@[simp] theorem size_alloc : (w.alloc o).2.objs.size = w.objs.size + 1 := by
  simp [alloc]

theorem obj_alloc (id' : ObjId) :
    (w.alloc o).2.obj id' = if id' = w.objs.size then o else w.obj id' := by
  simp only [alloc, obj, Array.getElem?_push]
  split <;> rfl

theorem obj_alloc_old (h : id' < w.objs.size) : (w.alloc o).2.obj id' = w.obj id' := by
  rw [obj_alloc, if_neg (Nat.ne_of_lt h)]

@[simp] theorem obj_alloc_self : (w.alloc o).2.obj w.objs.size = o := by
  rw [obj_alloc, if_pos rfl]

@[simp] theorem objs_newScope {outer : Option ScopeId} :
    (w.newScope outer).2.objs = w.objs := rfl

@[simp] theorem objs_bind {s : ScopeId} {name : String} {v : Value} :
    (w.bind s name v).objs = w.objs := rfl

@[simp] theorem objs_declare {s : ScopeId} {name : String} :
    (w.declare s name).objs = w.objs := by
  unfold declare
  split <;> rfl

theorem scope_newScope {outer : Option ScopeId} (s : ScopeId) :
    (w.newScope outer).2.scope s = if s = w.scopes.size then ⟨[], outer⟩ else w.scope s := by
  simp only [newScope, scope, Array.getElem?_push]
  split <;> rfl

theorem scope_bind {s : ScopeId} {name : String} {v : Value} (s' : ScopeId) :
    (w.bind s name v).scope s' =
      if s' = s ∧ s < w.scopes.size then
        { w.scope s with vars := Props.set (w.scope s).vars name v }
      else w.scope s' := by
  simp only [bind, scope, Array.getElem?_modify]
  by_cases hs : s' = s
  · subst hs
    by_cases hlt : s' < w.scopes.size
    · simp [hlt]
    · simp [hlt]
  · simp [hs, Ne.symm hs]

theorem obj_eq_of_objs_eq {w' : World} (h : w'.objs = w.objs) (id : ObjId) :
    w'.obj id = w.obj id := by
  simp [obj, h]

end World

end EcmaLite
