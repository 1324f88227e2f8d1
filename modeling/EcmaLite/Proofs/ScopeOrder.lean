import EcmaLite.Proofs.Sealed

/-!
# Scopes in the order they were made

A scope gets its outer link when it is made (`World.newScope`) and keeps it: binding and
declaring change a scope's bindings only. A new scope is made inside one that already exists,
so a world keeps its scopes *ordered* (`World.ScopesOrdered`): each outer link points to a scope
of smaller id, and every script function closes over a scope that has been made.

In an ordered world every chain of outer links is finite (`ScopesOrdered.encloses_wf`) and never
comes back to where it started (`ScopesOrdered.not_transGen_self`). The walk along the chain
that `lookupScope`, `resolve` and `assign` make, with fuel of one more than the number of
scopes, never runs out of it: it gives the nearest scope that binds the name
(`World.NearestBinder`), and `none` exactly when the chain ends with no scope that binds it
(`World.Unbound`).

The last part gives each primitive change of a world the condition under which it keeps the
scopes ordered: a new scope's outer scope, and the scope a new script function closes over,
must exist.
-/

namespace EcmaLite

@[simp] theorem Scope.default_vars : (default : Scope).vars = [] := rfl

@[simp] theorem Scope.default_outer : (default : Scope).outer = none := rfl

namespace Obj

variable {n m : Nat} {o : Obj} {key : String} {v : Value}

/-- As a script function, the object closes over a scope below `n`. -/
def ClosesBelow (n : Nat) (o : Obj) : Prop :=
  ∀ name code sc g, o.kind = .function name (.script code sc g) → sc < n

theorem ClosesBelow.mono (h : o.ClosesBelow n) (hnm : n ≤ m) : o.ClosesBelow m :=
  fun name code sc g hk => Nat.lt_of_lt_of_le (h name code sc g hk) hnm

theorem ClosesBelow.putOwn (h : o.ClosesBelow n) : (o.putOwn key v).ClosesBelow n :=
  fun name code sc g hk => h name code sc g (putOwn_kind_function hk)

theorem ClosesBelow.deleteOwn (h : o.ClosesBelow n) : (o.deleteOwn key).ClosesBelow n :=
  fun name code sc g hk => h name code sc g (deleteOwn_kind_function hk)

theorem ClosesBelow.relink (h : o.ClosesBelow n) {proto : Option ObjId} :
    { o with proto := proto }.ClosesBelow n := h

theorem closesBelow_plain {cls : ClassTag} {proto : Option ObjId} :
    (plain cls proto).ClosesBelow n :=
  fun _ _ _ _ hk => by cases hk

end Obj

namespace World

/-- Scope `o` is the outer scope of scope `i`. -/
def Encloses (w : World) (o i : ScopeId) : Prop := (w.scope i).outer = some o

/-- Every outer link points to a scope made earlier, and every script function closes over a
scope that has been made. -/
structure ScopesOrdered (w : World) : Prop where
  outer_lt : ∀ {o i}, w.Encloses o i → o < i
  closures : ∀ id, (w.obj id).ClosesBelow w.scopes.size

variable {w : World}

theorem scope_of_size_le {id : ScopeId} (h : w.scopes.size ≤ id) : w.scope id = default := by
  simp [scope, h]

/-! ## The chain of outer links -/

/-- No chain of outer links goes on for ever. -/
theorem ScopesOrdered.encloses_wf (hw : w.ScopesOrdered) : WellFounded w.Encloses :=
  Subrelation.wf (fun h => hw.outer_lt h) wellFounded_lt

/-- Every scope on the chain from `i` was made before it. -/
theorem ScopesOrdered.lt_of_transGen (hw : w.ScopesOrdered) {o i : ScopeId}
    (h : Relation.TransGen w.Encloses o i) : o < i := by
  induction h with
  | single h => exact hw.outer_lt h
  | tail _ h ih => exact Nat.lt_trans ih (hw.outer_lt h)

/-- No chain of outer links comes back to where it started. -/
theorem ScopesOrdered.not_transGen_self (hw : w.ScopesOrdered) (i : ScopeId) :
    ¬ Relation.TransGen w.Encloses i i :=
  fun h => Nat.lt_irrefl i (hw.lt_of_transGen h)

/-- `t` is the nearest scope that binds `name` on the chain of outer links from `id`. -/
inductive NearestBinder (w : World) (name : String) : ScopeId → ScopeId → Prop
  | here {id : ScopeId} : Props.contains (w.scope id).vars name = true →
      NearestBinder w name id id
  | out {id o t : ScopeId} : Props.contains (w.scope id).vars name = false → w.Encloses o id →
      NearestBinder w name o t → NearestBinder w name id t

/-- No scope on the chain of outer links from `id` binds `name`, and the chain ends. -/
inductive Unbound (w : World) (name : String) : ScopeId → Prop
  | last {id : ScopeId} : Props.contains (w.scope id).vars name = false →
      (w.scope id).outer = none → Unbound w name id
  | out {id o : ScopeId} : Props.contains (w.scope id).vars name = false → w.Encloses o id →
      Unbound w name o → Unbound w name id

variable {name : String} {id t : ScopeId}

theorem NearestBinder.binds (h : w.NearestBinder name id t) :
    Props.contains (w.scope t).vars name = true := by
  induction h with
  | here hc => exact hc
  | out _ _ _ ih => exact ih

/-- A scope never made binds nothing and has no outer scope, so a chain with a binder starts
at a scope that was made. -/
theorem NearestBinder.lt_size (h : w.NearestBinder name id t) : id < w.scopes.size := by
  refine Nat.lt_of_not_le fun hle => ?_
  have hd := scope_of_size_le hle
  cases h with
  | here hc => simp [hd, Props.contains] at hc
  | out _ ho _ =>
    unfold Encloses at ho
    simp [hd] at ho

/-- What the walk finds, with whatever fuel, is the nearest binder. -/
theorem nearestBinder_of_bindingScope {fuel : Nat} (h : w.bindingScope name fuel id = some t) :
    w.NearestBinder name id t := by
  induction fuel generalizing id with
  | zero => simp [bindingScope] at h
  | succ f ih =>
    simp only [bindingScope] at h
    split at h
    · cases h
      exact .here ‹_›
    · rename_i hc
      split at h
      · exact .out (by simpa using hc) ‹_› (ih h)
      · cases h

/-- Fuel beyond the starting id is enough for the walk to reach the nearest binder. -/
theorem ScopesOrdered.bindingScope_of_nearestBinder (hw : w.ScopesOrdered)
    (h : w.NearestBinder name id t) {fuel : Nat} (hf : id < fuel) :
    w.bindingScope name fuel id = some t := by
  induction h generalizing fuel with
  | here hc =>
    obtain ⟨f, rfl⟩ := Nat.exists_eq_succ_of_ne_zero (Nat.ne_zero_of_lt hf)
    simp [bindingScope, hc]
  | out hc ho _ ih =>
    obtain ⟨f, rfl⟩ := Nat.exists_eq_succ_of_ne_zero (Nat.ne_zero_of_lt hf)
    have hlt := hw.outer_lt ho
    unfold Encloses at ho
    simp [bindingScope, hc, ho, ih (Nat.lt_of_lt_of_le hlt (Nat.le_of_lt_succ hf))]

/-- Fuel beyond the starting id is enough for the walk to reach the end of the chain. -/
theorem ScopesOrdered.bindingScope_of_unbound (hw : w.ScopesOrdered) (h : w.Unbound name id)
    {fuel : Nat} (hf : id < fuel) : w.bindingScope name fuel id = none := by
  induction h generalizing fuel with
  | last hc hn =>
    obtain ⟨f, rfl⟩ := Nat.exists_eq_succ_of_ne_zero (Nat.ne_zero_of_lt hf)
    simp [bindingScope, hc, hn]
  | out hc ho _ ih =>
    obtain ⟨f, rfl⟩ := Nat.exists_eq_succ_of_ne_zero (Nat.ne_zero_of_lt hf)
    have hlt := hw.outer_lt ho
    unfold Encloses at ho
    simp [bindingScope, hc, ho, ih (Nat.lt_of_lt_of_le hlt (Nat.le_of_lt_succ hf))]

/-- Along an ordered chain every name has a nearest binder or none at all. -/
theorem ScopesOrdered.nearestBinder_or_unbound (hw : w.ScopesOrdered) (name : String)
    (id : ScopeId) : (∃ t, w.NearestBinder name id t) ∨ w.Unbound name id := by
  induction id using Nat.strong_induction_on with
  | _ id ih =>
    cases hc : Props.contains (w.scope id).vars name with
    | true => exact .inl ⟨id, .here hc⟩
    | false =>
      cases ho : (w.scope id).outer with
      | none => exact .inr (.last hc ho)
      | some o =>
        rcases ih o (hw.outer_lt ho) with ⟨t, ht⟩ | hu
        · exact .inl ⟨t, .out hc ho ht⟩
        · exact .inr (.out hc ho hu)

theorem ScopesOrdered.lookupScope_eq_some_iff (hw : w.ScopesOrdered) :
    w.lookupScope id name = some t ↔ w.NearestBinder name id t :=
  ⟨nearestBinder_of_bindingScope,
    fun h => hw.bindingScope_of_nearestBinder h (Nat.lt_succ_of_lt h.lt_size)⟩

theorem ScopesOrdered.lookupScope_eq_none_iff (hw : w.ScopesOrdered) :
    w.lookupScope id name = none ↔ w.Unbound name id := by
  constructor
  · intro h
    rcases hw.nearestBinder_or_unbound name id with ⟨t, ht⟩ | hu
    · rw [hw.lookupScope_eq_some_iff.mpr ht] at h
      cases h
    · exact hu
  · intro hu
    by_cases hlt : id < w.scopes.size
    · exact hw.bindingScope_of_unbound hu (Nat.lt_succ_of_lt hlt)
    · simp [lookupScope, bindingScope, scope_of_size_le (Nat.le_of_not_lt hlt), Props.contains]

/-! ## Changes that keep the scopes ordered -/

variable {id : ObjId} {key : String} {v : Value} {s : ScopeId}

@[simp] theorem size_scopes_bind {name : String} :
    (w.bind s name v).scopes.size = w.scopes.size := by
  simp [World.bind]

theorem ScopesOrdered.update (hw : w.ScopesOrdered) {f : Obj → Obj}
    (hf : ∀ o : Obj, o.ClosesBelow w.scopes.size → (f o).ClosesBelow w.scopes.size) :
    (w.update id f).ScopesOrdered where
  outer_lt := hw.outer_lt
  closures a := by
    by_cases hlt : id < w.objs.size
    · rw [obj_update a hlt]
      split
      · exact hf _ (hw.closures id)
      · exact hw.closures a
    · rw [obj_update_of_size_le (Nat.le_of_not_lt hlt)]
      exact hw.closures a

theorem ScopesOrdered.put (hw : w.ScopesOrdered) : (w.put id key v).ScopesOrdered :=
  hw.update fun _ ho => ho.putOwn

theorem ScopesOrdered.deleteOwn (hw : w.ScopesOrdered) :
    (w.update id (·.deleteOwn key)).ScopesOrdered :=
  hw.update fun _ ho => ho.deleteOwn

theorem ScopesOrdered.relink (hw : w.ScopesOrdered) {proto : Option ObjId} :
    (w.relink id proto).ScopesOrdered :=
  hw.update fun _ ho => ho.relink

theorem ScopesOrdered.alloc (hw : w.ScopesOrdered) {ob : Obj}
    (hob : ob.ClosesBelow w.scopes.size) : (w.alloc ob).2.ScopesOrdered where
  outer_lt := hw.outer_lt
  closures a := by
    rw [obj_alloc]
    split
    · exact hob
    · exact hw.closures a

theorem ScopesOrdered.allocPlain (hw : w.ScopesOrdered) {proto : Option ObjId} :
    (w.allocPlain proto).2.ScopesOrdered :=
  hw.alloc Obj.closesBelow_plain

theorem ScopesOrdered.allocObject (hw : w.ScopesOrdered) : w.allocObject.2.ScopesOrdered :=
  hw.allocPlain

theorem ScopesOrdered.allocArray (hw : w.ScopesOrdered) {elems : List Value} :
    (w.allocArray elems).2.ScopesOrdered :=
  hw.alloc fun _ _ _ _ hk => by cases hk

/-- A new script function must close over a scope that exists. -/
theorem ScopesOrdered.allocFunction (hw : w.ScopesOrdered) {name : String} {body : Callable}
    (hbody : ∀ code sc g, body = .script code sc g → sc < w.scopes.size) :
    (w.allocFunction name body).2.ScopesOrdered :=
  hw.allocObject.alloc fun _ code sc g hk => by
    cases hk
    exact hbody code sc g rfl

theorem ScopesOrdered.installNative (hw : w.ScopesOrdered) {target : ObjId} {name : String}
    {k : Native} : (w.installNative target name k).ScopesOrdered :=
  (hw.allocFunction fun _ _ _ h => by cases h).put

/-- A new scope must be made inside one that exists. -/
theorem ScopesOrdered.newScope (hw : w.ScopesOrdered) {outer : Option ScopeId}
    (houter : ∀ o, outer = some o → o < w.scopes.size) :
    (w.newScope outer).2.ScopesOrdered where
  outer_lt {o i} h := by
    unfold Encloses at h
    rw [scope_newScope] at h
    split at h
    · subst i
      exact houter o h
    · exact hw.outer_lt h
  closures a := (hw.closures a).mono (by simp [World.newScope])

theorem ScopesOrdered.bind (hw : w.ScopesOrdered) {name : String} :
    (w.bind s name v).ScopesOrdered where
  outer_lt {o i} h := by
    unfold Encloses at h
    rw [scope_bind] at h
    split at h
    · rename_i hs
      rw [hs.1]
      exact hw.outer_lt h
    · exact hw.outer_lt h
  closures a := by
    rw [size_scopes_bind]
    exact hw.closures a

theorem ScopesOrdered.declare (hw : w.ScopesOrdered) {name : String} :
    (w.declare s name).ScopesOrdered := by
  unfold World.declare
  split
  · exact hw
  · exact hw.bind

theorem ScopesOrdered.with_ctx (hw : w.ScopesOrdered) {c : Context} :
    { w with ctx := c }.ScopesOrdered :=
  ⟨hw.outer_lt, hw.closures⟩

theorem ScopesOrdered.with_printed (hw : w.ScopesOrdered) {out : Array String} :
    { w with printed := out }.ScopesOrdered :=
  ⟨hw.outer_lt, hw.closures⟩

/-- What `setProto` leaves when it answers: the world as it was, or the object relinked. -/
theorem setProto_ok_world {proto : Option ObjId} {b : Bool} {w' : World}
    (h : World.setProto id proto w = .ok b w') : w' = w ∨ ∃ p, w' = w.relink id p := by
  cases proto with
  | none =>
    rw [setProto_none_apply] at h
    cases h
    exact .inr ⟨none, rfl⟩
  | some p =>
    rcases setProto_some_cases w id p with ⟨_, h'⟩ | ⟨_, _, h'⟩ | ⟨_, _, h'⟩
    all_goals rw [h'] at h
    · cases h
      exact .inl rfl
    · cases h
    · cases h
      exact .inr ⟨some p, rfl⟩

theorem ScopesOrdered.setProto (hw : w.ScopesOrdered) {proto : Option ObjId} {b : Bool}
    {w' : World} (h : World.setProto id proto w = .ok b w') : w'.ScopesOrdered := by
  rcases setProto_ok_world h with rfl | ⟨p, rfl⟩
  · exact hw
  · exact hw.relink

/-- A new environment's global object and built-ins close over no scope. -/
theorem ScopesOrdered.allocGlobal (hw : w.ScopesOrdered) : w.allocGlobal.2.ScopesOrdered := by
  unfold World.allocGlobal
  dsimp only
  exact ((((((((hw.alloc Obj.closesBelow_plain).installNative.installNative.allocFunction
    fun _ _ _ h => by cases h).alloc fun _ _ _ _ hk => by cases hk).put).put).put).put).put).put

@[simp] theorem scopes_alloc {ob : Obj} : (w.alloc ob).2.scopes = w.scopes := rfl

@[simp] theorem scopes_put : (w.put id key v).scopes = w.scopes := rfl

@[simp] theorem scopes_installNative {target : ObjId} {name : String} {k : Native} :
    (w.installNative target name k).scopes = w.scopes := rfl

@[simp] theorem scopes_allocFunction {name : String} {body : Callable} :
    (w.allocFunction name body).2.scopes = w.scopes := rfl

@[simp] theorem scopes_allocGlobal : w.allocGlobal.2.scopes = w.scopes := by
  unfold World.allocGlobal
  simp only [scopes_put, scopes_alloc, scopes_allocFunction, scopes_installNative]

theorem ScopesOrdered.with_protos (hw : w.ScopesOrdered) {P : Protos} :
    { w with protos := P }.ScopesOrdered :=
  ⟨hw.outer_lt, hw.closures⟩

/-- A fresh world has no scope, and its built-in functions close over none. -/
theorem start_scopesOrdered (L : Limits) : (World.start L).ScopesOrdered := by
  have h0 : World.ScopesOrdered ⟨#[], #[], #[], ⟨0, 1, 2⟩, L, default⟩ := by
    refine ⟨fun h => ?_, fun id => ?_⟩
    · unfold Encloses at h
      rw [scope_of_size_le (Nat.zero_le _)] at h
      cases h
    · rw [obj_of_size_le (Nat.zero_le _)]
      exact fun _ _ _ _ hk => by cases hk
  unfold World.start
  dsimp only
  refine ScopesOrdered.installNative (ScopesOrdered.installNative (ScopesOrdered.installNative
    (ScopesOrdered.with_protos ?_)))
  exact ((h0.alloc Obj.closesBelow_plain).alloc Obj.closesBelow_plain).alloc Obj.closesBelow_plain

end World

end EcmaLite
