import EcmaLite.Proofs.MachineScopes
import EcmaLite.Proofs.SessionSealed

/-!
# Scope walks end in every session

A session holds scopes of its own: each environment's global scope and the scopes the host has
named. Every request keeps the world's scopes ordered and every scope the session holds made
(`Session.ScopesOrdered`): a host makes new scopes inside one it holds or inside none, and code
it runs starts in a scope it holds, so the machine's invariant applies.

So in every session a host reaches, each outer link points to a scope made earlier, no chain of
outer links is infinite or comes back on itself, and looking a name up, reading it and
assigning it from any scope act on the nearest scope of the chain that binds it, or report that
none does exactly when none does (`scope_walks_end_at_nearest_binder`).
-/

namespace EcmaLite

namespace Session

/-- The world's scopes are ordered, and every scope the session holds has been made: each
environment's global scope and each scope the host named. -/
structure ScopesOrdered (s : Session) : Prop where
  world : s.world.ScopesOrdered
  envs : ∀ e ∈ s.envs, e.scope < s.world.scopes.size
  named : ∀ p ∈ s.named, p.2 < s.world.scopes.size

/-- `s'` keeps its scopes ordered and has every scope of `s`. -/
abbrev ScopesGrow (s s' : Session) : Prop :=
  EcmaLite.Grows Session.ScopesOrdered (·.world.scopes.size) s s'

/-- Running `x` from `s` keeps the session's scopes ordered and makes scopes only at the end;
what it returns satisfies `Q`. -/
abbrev KeepsScopes {α : Type} (x : Host α) (s : Session) (Q : α → Session → Prop) : Prop :=
  EcmaLite.Keeps Session.ScopesOrdered (·.world.scopes.size) x s Q

variable {α : Type} {s : Session} {e : Env}

theorem ScopesOrdered.with_world (hs : s.ScopesOrdered) {w : World} (hw : w.ScopesOrdered)
    (hsize : s.world.scopes.size ≤ w.scopes.size) : { s with world := w }.ScopesOrdered where
  world := hw
  envs e he := Nat.lt_of_lt_of_le (hs.envs e he) hsize
  named p hp := Nat.lt_of_lt_of_le (hs.named p hp) hsize

/-- Machine code run on the session's world keeps what it keeps there. -/
theorem machine_scopes {r : Run α} {P : α → World → Prop} (hs : s.ScopesOrdered)
    (hr : EcmaLite.Keeps World.ScopesOrdered (·.scopes.size) r s.world P) :
    KeepsScopes (machine r) s fun a s' => P a s'.world := by
  show Ends Session.ScopesOrdered (·.world.scopes.size) s _ (machine r s)
  unfold machine
  have hr' : Ends World.ScopesOrdered (·.scopes.size) s.world P (r s.world) := hr
  cases hres : r s.world with
  | ok a w =>
    rw [hres] at hr'
    exact ⟨⟨hs.with_world hr'.1.1 hr'.1.2, hr'.1.2⟩, hr'.2⟩
  | error f w =>
    rw [hres] at hr'
    exact ⟨hs.with_world hr'.1 hr'.2, hr'.2⟩

/-- Code the machine runs from a world where it runs keeps the world's scopes ordered. -/
theorem machine_running {r : Run α} (hs : s.ScopesOrdered)
    (hr : Run.KeepsScopes r s.world fun _ _ => True) :
    KeepsScopes (machine r) s fun _ _ => True :=
  machine_scopes hs (hr.weaken fun _ h => h.toScopesOrdered)

/-- A new scope made inside a scope that exists, or inside none. -/
theorem newScope_scopes {w : World} (hw : w.ScopesOrdered) {outer : Option ScopeId}
    (houter : ∀ o, outer = some o → o < w.scopes.size) :
    EcmaLite.Keeps World.ScopesOrdered (·.scopes.size) (Run.make (World.newScope outer)) w
      fun sc w' => sc < w'.scopes.size :=
  ⟨⟨hw.newScope houter, by simp⟩, by simp⟩

/-! ## Environments -/

/-- A new environment's global scope is a new scope inside none. -/
theorem ScopesOrdered.addEnv (hs : s.ScopesOrdered) : s.ScopesGrow s.addEnv := by
  unfold Session.addEnv
  dsimp only
  have hn : (s.world.allocGlobal.2.newScope none).2.ScopesOrdered :=
    hs.world.allocGlobal.newScope fun _ h => by cases h
  have hsize : (s.world.allocGlobal.2.newScope none).2.scopes.size = s.world.scopes.size + 1 := by
    simp [World.newScope]
  refine ⟨⟨hn, fun e he => ?_, fun p hp => ?_⟩, ?_⟩
  · show _ < (s.world.allocGlobal.2.newScope none).2.scopes.size
    rw [hsize]
    rcases Array.mem_push.mp he with he | rfl
    · exact Nat.lt_succ_of_lt (hs.envs e he)
    · simp [World.newScope]
  · show _ < (s.world.allocGlobal.2.newScope none).2.scopes.size
    rw [hsize]
    exact Nat.lt_succ_of_lt (hs.named p hp)
  · show _ ≤ (s.world.allocGlobal.2.newScope none).2.scopes.size
    rw [hsize]
    exact Nat.le_succ _

theorem ScopesOrdered.addEnvs (hs : s.ScopesOrdered) (n : Nat) : s.ScopesGrow (s.addEnvs n) := by
  induction n with
  | zero => exact Grows.refl hs
  | succ n ih =>
    rw [Session.addEnvs]
    exact ih.trans ih.1.addEnv

/-- The environment a request names is made when missing, so its global scope exists. -/
theorem env_scopes (hs : s.ScopesOrdered) {k : Nat} :
    KeepsScopes (env k) s fun e s' => e.scope < s'.world.scopes.size := by
  unfold env
  have hadd := hs.addEnvs (k + 1 - s.envs.size)
  refine keeps_modify_bind hadd (keeps_get_bind (keeps_pure hadd.1 ?_))
  show ((s.addEnvs (k + 1 - s.envs.size)).envs[k]?.getD ⟨0, 0, none⟩).scope < _
  have hk : k < (s.addEnvs (k + 1 - s.envs.size)).envs.size := by
    rw [size_addEnvs]
    omega
  rw [Array.getElem?_eq_getElem hk, Option.getD_some]
  exact hadd.1.envs _ (Array.getElem_mem hk)

/-! ## Running code -/

/-- Code entered in a scope that exists runs with its scopes ordered. -/
theorem enter_scopes (hs : s.ScopesOrdered) {sc : ScopeId} (hsc : sc < s.world.scopes.size) :
    KeepsScopes (enter e sc) s fun _ s' => s'.world.ScopesRunning := by
  have hw : World.ScopesRunning { s.world with
      ctx := ⟨e.global, s.world.ctx.depth, sc, .obj e.global⟩ } :=
    ⟨hs.world.with_ctx, hsc⟩
  exact ⟨⟨hs.with_world hw.toScopesOrdered (Nat.le_refl _), Nat.le_refl _⟩, hw⟩

theorem evalIn_scopes (hs : s.ScopesOrdered) {src : String} {sc : ScopeId}
    (hsc : sc < s.world.scopes.size) : KeepsScopes (evalIn e src sc) s fun _ _ => True := by
  unfold Session.evalIn
  refine keeps_bind (enter_scopes hs hsc) fun _ s' hg hrun => ?_
  exact machine_running hg.1 ((Run.machine_keeps_scopes fuel).evalIn src sc _ s'.world hrun
    (Nat.lt_of_lt_of_le hsc hg.2))

theorem lookup_scopes (hs : s.ScopesOrdered) {name : String} :
    KeepsScopes (lookup e name) s fun _ _ => True := by
  unfold lookup
  refine keeps_get_bind ?_
  dsimp only
  split
  · exact keeps_pure hs trivial
  · exact machine_scopes hs (Run.lift_reads hs.world)

/-- A scope a host names is one the session holds. -/
theorem scopeNamed_scopes (hs : s.ScopesOrdered) (he : e.scope < s.world.scopes.size)
    {name : String} :
    KeepsScopes (scopeNamed e name) s fun sc s' => sc < s'.world.scopes.size := by
  unfold scopeNamed
  split
  · exact keeps_pure hs he
  · refine keeps_get_bind ?_
    split
    · -- the name stands in the session's list of named scopes
      obtain ⟨l₁, l₂, hl, -⟩ := List.lookup_eq_some_iff.mp ‹_›
      exact keeps_pure hs (hs.named _ (hl ▸ List.mem_append_right l₁ List.mem_cons_self))
    · exact keeps_throw hs

theorem value_scopes (hs : s.ScopesOrdered) (he : e.scope < s.world.scopes.size) :
    ∀ v : Spec, KeepsScopes (value e v) s fun _ _ => True
  | .lookup _ => lookup_scopes hs
  | .eval _ => evalIn_scopes hs he
  | .undefined | .null | .bool _ | .str _ | .numeral .. | .num _ => keeps_pure hs trivial

theorem values_scopes (hs : s.ScopesOrdered) (he : e.scope < s.world.scopes.size)
    (vs : List Spec) : KeepsScopes (values e vs) s fun _ _ => True := by
  induction vs generalizing s with
  | nil => exact keeps_pure hs trivial
  | cons v vs ih =>
    refine keeps_bind (value_scopes hs he v) fun a s1 hg1 _ => ?_
    refine keeps_bind (ih hg1.1 (Nat.lt_of_lt_of_le he hg1.2)) fun as s2 hg2 _ => ?_
    exact keeps_pure hg2.1 trivial

/-- The slot's script runs in a new scope inside none. -/
theorem runLast_scopes (hs : s.ScopesOrdered) : KeepsScopes (runLast e) s fun _ _ => True := by
  unfold runLast
  split
  · exact keeps_throw hs
  · next code _ =>
    refine keeps_bind (machine_scopes hs (newScope_scopes hs.world fun _ h => by cases h))
      fun sc s1 hg1 hsc => ?_
    refine keeps_bind (enter_scopes hg1.1 hsc) fun _ s2 hg2 hrun => ?_
    exact machine_running hg2.1 ((Run.machine_keeps_scopes fuel).invoke code e.global sc _ []
      s2.world hrun (Nat.lt_of_lt_of_le hsc hg2.2))

theorem shown_scopes (hs : s.ScopesOrdered) {v : Value} :
    KeepsScopes (shown v) s fun _ _ => True :=
  keeps_get_bind (keeps_pure hs trivial)

/-- `setProto` answers with the world as it was or an object relinked, and fails changing
nothing. -/
theorem setProto_scopes {w : World} (hw : w.ScopesOrdered) {o : ObjId} {proto : Option ObjId} :
    EcmaLite.Keeps World.ScopesOrdered (·.scopes.size) (World.setProto o proto) w
      fun _ _ => True := by
  show Ends World.ScopesOrdered (·.scopes.size) w _ (World.setProto o proto w)
  cases hr : World.setProto o proto w with
  | ok b w' =>
    rcases World.setProto_ok_world hr with rfl | ⟨p, rfl⟩
    · exact ⟨Grows.refl hw, trivial⟩
    · exact ⟨⟨hw.relink, Nat.le_refl _⟩, trivial⟩
  | error f w' =>
    rw [World.setProto_error_world hr]
    show EcmaLite.Grows World.ScopesOrdered (·.scopes.size) w w
    exact Grows.refl hw

/-! ## Requests -/

/-- Every operation keeps the session's scopes ordered, whether it answers or fails. -/
theorem perform_scopes (hs : s.ScopesOrdered) (k : Nat) (op : Op) :
    KeepsScopes (perform k op) s fun _ _ => True := by
  cases op with
  | eval src =>
    dsimp only [perform]
    refine keeps_bind (env_scopes hs) fun e s1 hg1 he => ?_
    refine keeps_bind (evalIn_scopes hg1.1 he) fun v s2 hg2 _ => ?_
    exact shown_scopes hg2.1
  | evalIn src scope =>
    dsimp only [perform]
    refine keeps_bind (env_scopes hs) fun e s1 hg1 he => ?_
    refine keeps_bind (scopeNamed_scopes hg1.1 he) fun sc s2 hg2 hsc => ?_
    refine keeps_bind (evalIn_scopes hg2.1 hsc) fun v s3 hg3 _ => ?_
    exact shown_scopes hg3.1
  | newScope name parent =>
    dsimp only [perform]
    refine keeps_bind (env_scopes hs) fun e s1 hg1 he => ?_
    -- the three ways to name the outer scope share what follows
    have htail : ∀ (outer : Option ScopeId) (s' : Session), s'.ScopesOrdered →
        (∀ o, outer = some o → o < s'.world.scopes.size) →
        KeepsScopes (do
          let sc ← machine (Run.make (World.newScope outer))
          modify fun s : Session => { s with named := (name, sc) :: s.named }
          pure Reply.ok) s' fun _ _ => True := by
      intro outer s' h' houter
      refine keeps_bind (machine_scopes h' (newScope_scopes h'.world houter))
        fun sc s3 hg3 hsc => ?_
      have h4 : { s3 with named := (name, sc) :: s3.named }.ScopesOrdered := by
        refine ⟨hg3.1.world, hg3.1.envs, fun p hp => ?_⟩
        rcases List.mem_cons.mp hp with rfl | hp
        · exact hsc
        · exact hg3.1.named p hp
      exact keeps_modify_bind ⟨h4, Nat.le_refl _⟩ (keeps_pure h4 trivial)
    split
    · exact keeps_throw_bind hg1.1
    · split
      · exact keeps_pure_bind (htail _ _ hg1.1 fun o h => by cases h; exact he)
      · exact keeps_pure_bind (htail _ _ hg1.1 fun _ h => by cases h)
      · refine keeps_bind (keeps_map
          (R := fun outer s' => ∀ o, outer = some o → o < s'.world.scopes.size)
          (scopeNamed_scopes hg1.1 he) fun sc _ _ hsc o h => by cases h; exact hsc)
          fun outer s2 hg2 houter => htail outer s2 hg2.1 houter
  | bind scope name v =>
    dsimp only [perform]
    refine keeps_bind (env_scopes hs) fun e s1 hg1 he => ?_
    refine keeps_bind (scopeNamed_scopes hg1.1 he) fun sc s2 hg2 _ => ?_
    refine keeps_bind (value_scopes hg2.1 (Nat.lt_of_lt_of_le he hg2.2) v)
      fun a s3 hg3 _ => ?_
    have hbind : EcmaLite.Keeps World.ScopesOrdered (·.scopes.size)
        (modify (World.bind sc name a) : Run PUnit) s3.world fun _ _ => True :=
      keeps_modify ⟨hg3.1.world.bind, by simp⟩
    refine keeps_bind (machine_scopes hg3.1 hbind) fun _ s4 hg4 _ => ?_
    exact keeps_pure hg4.1 trivial
  | resolve scope name =>
    dsimp only [perform]
    refine keeps_bind (env_scopes hs) fun e s1 hg1 he => ?_
    refine keeps_bind (scopeNamed_scopes hg1.1 he) fun sc s2 hg2 _ => ?_
    refine keeps_get_bind ?_
    split
    · exact shown_scopes hg2.1
    · exact keeps_pure hg2.1 trivial
  | evaluate src =>
    dsimp only [perform]
    refine keeps_bind (env_scopes hs) fun _ s1 hg1 _ => ?_
    refine keeps_bind (machine_scopes hg1.1 (Run.lift_reads hg1.1.world)) fun code s2 hg2 _ => ?_
    -- the slot and the handle change; the world and the scopes held do not
    have h3 : ScopesOrdered { s2 with
        envs := s2.envs.modify k fun e => { e with script := some code }
        handles := s2.handles.push k } := by
      refine ⟨hg2.1.world, fun e he => ?_, hg2.1.named⟩
      obtain ⟨i, hi⟩ := Array.mem_iff_getElem?.mp he
      rw [Array.getElem?_modify] at hi
      split at hi
      · obtain ⟨e0, he0, rfl⟩ := Option.map_eq_some_iff.mp hi
        exact hg2.1.envs e0 (Array.mem_of_getElem? he0)
      · exact hg2.1.envs e (Array.mem_of_getElem? hi)
    exact keeps_get_bind (keeps_set_bind ⟨h3, Nat.le_refl _⟩ (keeps_pure h3 trivial))
  | invoke h target =>
    dsimp only [perform]
    refine keeps_get_bind ?_
    split
    · exact keeps_throw hs
    · refine keeps_bind (env_scopes hs) fun e s1 hg1 _ => ?_
      split
      · exact keeps_throw_bind hg1.1
      · exact keeps_bind (runLast_scopes hg1.1) fun _ s2 hg2 _ => shown_scopes hg2.1
  | runLast =>
    dsimp only [perform]
    refine keeps_bind (env_scopes hs) fun e s1 hg1 _ => ?_
    refine keeps_bind (runLast_scopes hg1.1) fun v s2 hg2 _ => ?_
    exact shown_scopes hg2.1
  | lookup name =>
    dsimp only [perform]
    refine keeps_bind (env_scopes hs) fun e s1 hg1 _ => ?_
    refine keeps_bind (lookup_scopes hg1.1) fun v s2 hg2 _ => ?_
    exact shown_scopes hg2.1
  | call fn this args =>
    dsimp only [perform]
    refine keeps_bind (env_scopes hs) fun e s1 hg1 he => ?_
    refine keeps_bind (value_scopes hg1.1 he fn) fun f s2 hg2 _ => ?_
    have he2 := Nat.lt_of_lt_of_le he hg2.2
    refine keeps_bind (value_scopes hg2.1 he2 this) fun r s3 hg3 _ => ?_
    have he3 := Nat.lt_of_lt_of_le he2 hg3.2
    refine keeps_bind (values_scopes hg3.1 he3 args) fun as s4 hg4 _ => ?_
    refine keeps_bind (enter_scopes hg4.1 (Nat.lt_of_lt_of_le he3 hg4.2)) fun _ s5 hg5 hrun => ?_
    refine keeps_bind (machine_running hg5.1
      ((Run.machine_keeps_scopes fuel).callWith f r as s5.world hrun)) fun v s6 hg6 _ => ?_
    exact shown_scopes hg6.1
  | setPrototype object proto =>
    dsimp only [perform]
    refine keeps_bind (env_scopes hs) fun e s1 hg1 he => ?_
    refine keeps_bind (value_scopes hg1.1 he object) fun x s2 hg2 _ => ?_
    cases x with
    | undefined | null | bool _ | str _ | num _ => exact keeps_throw hg2.1
    | obj id =>
      refine keeps_bind (value_scopes hg2.1 (Nat.lt_of_lt_of_le he hg2.2) proto)
        fun y s3 hg3 _ => ?_
      -- an object and `null` both reach the same relink
      have htail : ∀ (p : Option ObjId) (s' : Session), s'.ScopesOrdered →
          KeepsScopes (machine (World.setProto id p) >>= fun b => shown (.bool b)) s'
            fun _ _ => True := fun p s' h' =>
        keeps_bind (machine_scopes h' (setProto_scopes h'.world)) fun _ s4 hg4 _ =>
          shown_scopes hg4.1
      cases y with
      | obj pid => exact keeps_pure_bind (htail _ _ hg3.1)
      | null => exact keeps_pure_bind (htail _ _ hg3.1)
      | undefined | bool _ | str _ | num _ => exact keeps_throw_bind hg3.1
  | parse src =>
    dsimp only [perform]
    split
    · exact keeps_pure hs trivial
    · exact keeps_pure hs trivial

/-! ## Answers and reachable sessions -/

theorem ScopesOrdered.answer (hs : s.ScopesOrdered) (req : Request) :
    (s.answer req).2.ScopesOrdered := by
  unfold Session.answer
  dsimp only
  -- the printed text is reset before the request runs
  set s0 : Session := { s with world := { s.world with printed := #[] } }
  have h0 : s0.ScopesOrdered := hs.with_world hs.world.with_printed (Nat.le_refl _)
  have hp : Ends Session.ScopesOrdered (·.world.scopes.size) s0 (fun _ _ => True)
      (perform req.env req.op s0) := perform_scopes h0 req.env req.op
  split
  · next r s' hr =>
    rw [hr] at hp
    exact hp.1.1
  · next r s' hr =>
    rw [hr] at hp
    exact hp.1

theorem start_scopesOrdered (limits : Limits) : (Session.start limits).ScopesOrdered where
  world := World.start_scopesOrdered limits
  envs e he := by simp [Session.start] at he
  named p hp := by simp [Session.start] at hp

theorem Reachable.scopesOrdered (h : s.Reachable) : s.ScopesOrdered := by
  induction h with
  | start limits => exact start_scopesOrdered limits
  | answer req _ ih => exact ih.answer req

end Session

/-- In every session a host reaches, each scope's outer link points to a scope made before it,
so every chain of outer links ends and none comes back on itself; and from every scope, looking
a name up, reading it and assigning it all act on the nearest scope of the chain that binds the
name, or report that no scope binds it exactly when none on the chain does. -/
theorem scope_walks_end_at_nearest_binder (s : Session) (hs : s.Reachable) :
    (∀ o i, s.world.Encloses o i → o < i) ∧
    WellFounded s.world.Encloses ∧
    (∀ i, ¬ Relation.TransGen s.world.Encloses i i) ∧
    ∀ (id : ScopeId) (name : String),
      (∃ t, s.world.NearestBinder name id t ∧ s.world.lookupScope id name = some t ∧
        (∃ v, s.world.resolve id name = some v ∧
          Props.get? (s.world.scope t).vars name = some v) ∧
        ∀ v, s.world.assign id name v = some (s.world.bind t name v)) ∨
      (s.world.Unbound name id ∧ s.world.lookupScope id name = none ∧
        s.world.resolve id name = none ∧ ∀ v, s.world.assign id name v = none) := by
  have hw := hs.scopesOrdered.world
  refine ⟨fun o i h => hw.outer_lt h, hw.encloses_wf, hw.not_transGen_self, fun id name => ?_⟩
  rcases hw.nearestBinder_or_unbound name id with ⟨t, ht⟩ | hu
  · have hl := hw.lookupScope_eq_some_iff.mpr ht
    refine .inl ⟨t, ht, hl, ?_, fun v => by simp [World.assign, hl]⟩
    -- the nearest binder binds the name, so the name has a value there
    obtain ⟨v, hv⟩ := Option.isSome_iff_exists.mp (Props.get?_isSome.trans ht.binds)
    exact ⟨v, by simp [World.resolve, hl, hv], hv⟩
  · have hl := hw.lookupScope_eq_none_iff.mpr hu
    exact .inr ⟨hu, hl, by simp [World.resolve, hl], fun v => by simp [World.assign, hl]⟩

/-- After the host binds `x` in the global scope of environment 0 and names a scope `inner` inside
it (scope 1), the walk from `inner` follows one link and stops at the global scope. -/
theorem inner_scope_walk_finds_global_binding :
    (((Session.start Limits.standard).answer ⟨0, .bind "global" "x" (.bool true)⟩).2.answer
      ⟨0, .newScope "inner" none⟩).2.Reachable ∧
    (((Session.start Limits.standard).answer ⟨0, .bind "global" "x" (.bool true)⟩).2.answer
      ⟨0, .newScope "inner" none⟩).2.world.NearestBinder "x" 1 0 ∧
    (((Session.start Limits.standard).answer ⟨0, .bind "global" "x" (.bool true)⟩).2.answer
      ⟨0, .newScope "inner" none⟩).2.world.resolve 1 "x" = some (.bool true) := by
  have hs : (((Session.start Limits.standard).answer ⟨0, .bind "global" "x" (.bool true)⟩).2.answer
      ⟨0, .newScope "inner" none⟩).2.Reachable := .answer _ (.answer _ (.start _))
  have hl : (((Session.start Limits.standard).answer ⟨0, .bind "global" "x" (.bool true)⟩).2.answer
      ⟨0, .newScope "inner" none⟩).2.world.lookupScope 1 "x" = some 0 := by decide
  rcases (scope_walks_end_at_nearest_binder _ hs).2.2.2 1 "x" with
    ⟨t, ht, hlt, -, -⟩ | ⟨-, hnone, -⟩
  · -- the walk from the inner scope stops at the global scope, which binds `x`
    rw [hl] at hlt
    cases hlt
    exact ⟨hs, ht, rfl⟩
  · rw [hl] at hnone
    cases hnone

end EcmaLite
