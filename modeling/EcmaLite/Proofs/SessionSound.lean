import EcmaLite.Proofs.MachineSound
import EcmaLite.Host.Session

/-!
# Sessions keep the heap acyclic

A session is sound when its world is, and the global object of every environment is allocated.
Every request a host makes keeps a session sound (`answer_sound`), whatever it runs and however it
ends, so every session reachable from a fresh one by requests has a sound world, whose prototype
relation has no cycle.
-/

namespace EcmaLite

namespace Session

/-- The world is sound and not empty, and the global object of every environment is
allocated. -/
structure Sound (s : Session) : Prop where
  world : s.world.Sound
  nonempty : 0 < s.world.objs.size
  globals : ∀ e ∈ s.envs, e.global < s.world.objs.size

/-- `s'` is sound and its world has at least the objects of `s`'s. -/
abbrev Grows (s s' : Session) : Prop := EcmaLite.Grows Session.Sound (·.world.objs.size) s s'

/-- Running `x` from `s` keeps the session sound and its world growing, and what it returns
satisfies `Q`. -/
abbrev Keeps {α : Type} (x : Host α) (s : Session) (Q : α → Session → Prop) : Prop :=
  EcmaLite.Keeps Session.Sound (·.world.objs.size) x s Q

variable {α : Type} {s : Session} {Q : α → Session → Prop}

theorem Sound.with_world (hs : s.Sound) {w : World} (hw : s.world.Grows w) :
    { s with world := w }.Sound where
  world := hw.1
  nonempty := Nat.lt_of_lt_of_le hs.nonempty hw.2
  globals e he := Nat.lt_of_lt_of_le (hs.globals e he) hw.2

theorem grows_with_world (hs : s.Sound) {w : World} (hw : s.world.Grows w) :
    s.Grows { s with world := w } :=
  ⟨hs.with_world hw, hw.2⟩

/-- Machine code run on the session's world keeps what it keeps there. -/
theorem keeps_machine {r : Run α} {P : α → World → Prop} (hs : s.Sound)
    (hr : Run.Keeps r s.world P) : Keeps (machine r) s fun a s' => P a s'.world := by
  show Ends Session.Sound (·.world.objs.size) s _ (machine r s)
  unfold machine
  have hr' : Ends World.Sound (·.objs.size) s.world P (r s.world) := hr
  cases hres : r s.world with
  | ok a w =>
    rw [hres] at hr'
    exact ⟨grows_with_world hs hr'.1, hr'.2⟩
  | error f w =>
    rw [hres] at hr'
    exact grows_with_world hs hr'

/-- A value allocated in the session's world. -/
def ValueOk (v : Value) (s : Session) : Prop := v.Below s.world.objs.size

theorem ValueOk.grows {v : Value} {s' : Session} (h : ValueOk v s) (hg : s.Grows s') :
    ValueOk v s' :=
  h.mono hg.2

/-! ## Environments -/

/-- A new environment's global object is allocated, in a sound world. -/
theorem Sound.addEnv (hs : s.Sound) : s.Grows s.addEnv := by
  unfold Session.addEnv
  dsimp only
  obtain ⟨hw, hglobal, hsize⟩ := hs.world.allocGlobal
  have hsc : s.world.allocGlobal.2.Grows (s.world.allocGlobal.2.newScope none).2 :=
    Run.grows_newScope hw
  have hgrow : s.world.objs.size ≤ (s.world.allocGlobal.2.newScope none).2.objs.size :=
    Nat.le_trans hsize hsc.2
  refine ⟨⟨hsc.1, Nat.lt_of_lt_of_le hs.nonempty hgrow, ?_⟩, hgrow⟩
  intro e he
  rcases Array.mem_push.mp he with he | rfl
  · exact Nat.lt_of_lt_of_le (hs.globals e he) hgrow
  · exact Nat.lt_of_lt_of_le hglobal hsc.2

theorem Sound.addEnvs (hs : s.Sound) (n : Nat) : s.Grows (s.addEnvs n) := by
  induction n with
  | zero => exact Grows.refl hs
  | succ n ih =>
    rw [Session.addEnvs]
    exact ih.trans ih.1.addEnv

/-- The global object of environment `e` is allocated in the session's world. -/
def EnvOk (e : Env) (s : Session) : Prop := e.global < s.world.objs.size

theorem EnvOk.grows {e : Env} {s' : Session} (h : EnvOk e s) (hg : s.Grows s') : EnvOk e s' :=
  Nat.lt_of_lt_of_le h hg.2

/-- The environment a request names, made when missing, has an allocated global object. -/
theorem env_keeps (hs : s.Sound) {k : Nat} : Keeps (env k) s EnvOk := by
  unfold env
  have hadd := hs.addEnvs (k + 1 - s.envs.size)
  refine keeps_modify_bind hadd (keeps_get_bind (keeps_pure hadd.1 ?_))
  show ((s.addEnvs (k + 1 - s.envs.size)).envs[k]?.getD ⟨0, 0, none⟩).global < _
  cases he : (s.addEnvs (k + 1 - s.envs.size)).envs[k]? with
  | none => exact hadd.1.nonempty
  | some e => exact hadd.1.globals e (Array.mem_of_getElem? he)

theorem globals_modify {envs : Array Env} {n k : Nat} {f : Env → Env}
    (h : ∀ e ∈ envs, e.global < n) (hf : ∀ e, (f e).global = e.global) :
    ∀ e ∈ envs.modify k f, e.global < n := by
  intro e he
  obtain ⟨i, hi⟩ := Array.mem_iff_getElem?.mp he
  rw [Array.getElem?_modify] at hi
  split at hi
  · obtain ⟨e0, he0, rfl⟩ := Option.map_eq_some_iff.mp hi
    rw [hf]
    exact h e0 (Array.mem_of_getElem? he0)
  · exact h e (Array.mem_of_getElem? hi)

/-! ## Running code -/

variable {e : Env}

theorem Sound.with_named (hs : s.Sound) (named : List (String × ScopeId)) :
    { s with named := named }.Sound :=
  ⟨hs.world, hs.nonempty, hs.globals⟩

/-- Setting the running context to an environment keeps a session sound. -/
theorem enter_keeps (hs : s.Sound) (he : EnvOk e s) {sc : ScopeId} :
    Keeps (enter e sc) s fun _ _ => True :=
  keeps_modify (grows_with_world hs (Run.grows_with_ctx hs.world he he))

theorem evalIn_keeps (hs : s.Sound) (he : EnvOk e s) {src : String} {sc : ScopeId} :
    Keeps (evalIn e src sc) s ValueOk := by
  unfold Session.evalIn
  refine keeps_bind (enter_keeps hs he) fun _ s' hg _ => ?_
  exact keeps_machine hg.1
    ((Run.machine_keeps fuel).evalIn src sc (.obj e.global) s'.world hg.1.world (he.grows hg))

theorem lookup_keeps (hs : s.Sound) {name : String} :
    Keeps (lookup e name) s ValueOk := by
  unfold lookup
  refine keeps_get_bind ?_
  dsimp only
  split
  · next v hv => exact keeps_pure hs (hs.world.resolve_below hv)
  · exact keeps_machine hs
      (Run.keeps_lift (Q := Run.ValueOk) hs.world fun v hv => hs.world.toClosed.getProp_below hv)

theorem scopeNamed_keeps (hs : s.Sound) {name : String} :
    Keeps (scopeNamed e name) s fun _ _ => True := by
  unfold scopeNamed
  split
  · exact keeps_pure hs trivial
  · refine keeps_get_bind ?_
    split
    · exact keeps_pure hs trivial
    · exact keeps_throw hs

/-- A value a host writes is allocated once it is made. -/
theorem value_keeps (hs : s.Sound) (he : EnvOk e s) : ∀ v : Spec, Keeps (value e v) s ValueOk
  | .lookup _ => lookup_keeps hs
  | .eval _ => evalIn_keeps hs he
  | .undefined | .null | .bool _ | .str _ | .numeral .. | .num _ => keeps_pure hs trivial

theorem values_keeps (hs : s.Sound) (he : EnvOk e s) (vs : List Spec) :
    Keeps (values e vs) s fun as s' => ∀ a ∈ as, ValueOk a s' := by
  induction vs generalizing s with
  | nil => exact keeps_pure hs fun _ h => nomatch h
  | cons v vs ih =>
    refine keeps_bind (value_keeps hs he v) fun a s1 hg1 ha => ?_
    refine keeps_bind (ih hg1.1 (he.grows hg1)) fun as s2 hg2 has => ?_
    refine keeps_pure hg2.1 fun x hx => ?_
    rcases List.mem_cons.mp hx with rfl | hx
    · exact ha.grows hg2
    · exact has x hx

theorem runLast_keeps (hs : s.Sound) (he : EnvOk e s) : Keeps (runLast e) s ValueOk := by
  unfold runLast
  split
  · exact keeps_throw hs
  · next code _ =>
    have hscope : Run.Keeps (Run.make (World.newScope none)) s.world fun _ _ => True :=
      ⟨Run.grows_newScope hs.world, trivial⟩
    refine keeps_bind (keeps_machine hs hscope) fun sc s1 hg1 _ => ?_
    refine keeps_bind (enter_keeps hg1.1 (he.grows hg1)) fun _ s2 hg2 _ => ?_
    exact keeps_machine hg2.1 ((Run.machine_keeps fuel).invoke code e.global sc (.obj e.global) []
      s2.world hg2.1.world ((he.grows hg1).grows hg2) fun _ h => nomatch h)

theorem shown_keeps (hs : s.Sound) {v : Value} : Keeps (shown v) s fun _ _ => True :=
  keeps_get_bind (keeps_pure hs trivial)

end Session

/-- `setProto` to an allocated prototype, or to none, keeps a world sound. -/
theorem Run.setProto_keeps {w : World} (hw : w.Sound) {o : ObjId} {proto : Option ObjId}
    (hp : ∀ q, proto = some q → q < w.objs.size) :
    Run.Keeps (World.setProto o proto) w fun _ _ => True := by
  show Ends World.Sound (·.objs.size) w _ (World.setProto o proto w)
  cases hr : World.setProto o proto w with
  | ok b w' => exact ⟨⟨hw.setProto hp hr, (World.size_setProto hr).ge⟩, trivial⟩
  | error f w' =>
    rw [World.setProto_error_world hr]
    show World.Grows w w
    exact Grows.refl hw

namespace Session

variable {s : Session}

/-! ## Requests -/

/-- Every operation keeps a session sound, whether it answers or fails. -/
theorem perform_keeps (hs : s.Sound) (k : Nat) (op : Op) :
    Keeps (perform k op) s fun _ _ => True := by
  cases op with
  | eval src =>
    dsimp only [perform]
    refine keeps_bind (env_keeps hs) fun e s1 hg1 he => ?_
    refine keeps_bind (evalIn_keeps hg1.1 he) fun v s2 hg2 _ => ?_
    exact shown_keeps hg2.1
  | evalIn src scope =>
    dsimp only [perform]
    refine keeps_bind (env_keeps hs) fun e s1 hg1 he => ?_
    refine keeps_bind (scopeNamed_keeps hg1.1) fun sc s2 hg2 _ => ?_
    refine keeps_bind (evalIn_keeps hg2.1 (he.grows hg2)) fun v s3 hg3 _ => ?_
    exact shown_keeps hg3.1
  | newScope name parent =>
    dsimp only [perform]
    refine keeps_bind (env_keeps hs) fun e s1 hg1 _ => ?_
    -- the three ways to name the outer scope share what follows
    have htail : ∀ (outer : Option ScopeId) (s' : Session), s'.Sound →
        Keeps (do
          let sc ← machine (Run.make (World.newScope outer))
          modify fun s : Session => { s with named := (name, sc) :: s.named }
          pure Reply.ok) s' fun _ _ => True := by
      intro outer s' h'
      have hscope : Run.Keeps (Run.make (World.newScope outer)) s'.world fun _ _ => True :=
        ⟨Run.grows_newScope h'.world, trivial⟩
      refine keeps_bind (keeps_machine h' hscope) fun sc s3 hg3 _ => ?_
      have h4 := hg3.1.with_named ((name, sc) :: s3.named)
      exact keeps_modify_bind ⟨h4, Nat.le_refl _⟩ (keeps_pure h4 trivial)
    split
    · exact keeps_throw_bind hg1.1
    · split
      · exact keeps_pure_bind (htail _ _ hg1.1)
      · exact keeps_pure_bind (htail _ _ hg1.1)
      · refine keeps_bind (keeps_map (R := fun _ _ => True) (scopeNamed_keeps hg1.1)
          fun _ _ _ _ => trivial)
          fun outer s2 hg2 _ => htail outer s2 hg2.1
  | bind scope name v =>
    dsimp only [perform]
    refine keeps_bind (env_keeps hs) fun e s1 hg1 he => ?_
    refine keeps_bind (scopeNamed_keeps hg1.1) fun sc s2 hg2 _ => ?_
    refine keeps_bind (value_keeps hg2.1 (he.grows hg2) v) fun a s3 hg3 ha => ?_
    have hbind : Run.Keeps (modify (World.bind sc name a)) s3.world fun _ _ => True :=
      keeps_modify (Run.grows_bind hg3.1.world ha)
    refine keeps_bind (keeps_machine hg3.1 hbind) fun _ s4 hg4 _ => ?_
    exact keeps_pure hg4.1 trivial
  | resolve scope name =>
    dsimp only [perform]
    refine keeps_bind (env_keeps hs) fun e s1 hg1 he => ?_
    refine keeps_bind (scopeNamed_keeps hg1.1) fun sc s2 hg2 _ => ?_
    refine keeps_get_bind ?_
    split
    · exact shown_keeps hg2.1
    · exact keeps_pure hg2.1 trivial
  | evaluate src =>
    dsimp only [perform]
    refine keeps_bind (env_keeps hs) fun _ s1 hg1 _ => ?_
    have hcompile : Run.Keeps (Run.lift (Run.compileSource src)) s1.world fun _ _ => True :=
      Run.keeps_lift hg1.1.world fun _ _ => trivial
    refine keeps_bind (keeps_machine hg1.1 hcompile) fun code s2 hg2 _ => ?_
    -- the slot and the handle change; the world and the global objects do not
    have h3 : Sound { s2 with
        envs := s2.envs.modify k fun e => { e with script := some code }
        handles := s2.handles.push k } :=
      ⟨hg2.1.world, hg2.1.nonempty, globals_modify (f := fun e => { e with script := some code }) hg2.1.globals
        fun _ => rfl⟩
    exact keeps_get_bind (keeps_set_bind ⟨h3, Nat.le_refl _⟩ (keeps_pure h3 trivial))
  | invoke h target =>
    dsimp only [perform]
    refine keeps_get_bind ?_
    split
    · exact keeps_throw hs
    · refine keeps_bind (env_keeps hs) fun e s1 hg1 he => ?_
      split
      · exact keeps_throw_bind hg1.1
      · exact keeps_bind (runLast_keeps hg1.1 he) fun _ s2 hg2 _ => shown_keeps hg2.1
  | runLast =>
    dsimp only [perform]
    refine keeps_bind (env_keeps hs) fun e s1 hg1 he => ?_
    refine keeps_bind (runLast_keeps hg1.1 he) fun v s2 hg2 _ => ?_
    exact shown_keeps hg2.1
  | lookup name =>
    dsimp only [perform]
    refine keeps_bind (env_keeps hs) fun e s1 hg1 he => ?_
    refine keeps_bind (lookup_keeps hg1.1) fun v s2 hg2 _ => ?_
    exact shown_keeps hg2.1
  | call fn this args =>
    dsimp only [perform]
    refine keeps_bind (env_keeps hs) fun e s1 hg1 he => ?_
    refine keeps_bind (value_keeps hg1.1 he fn) fun f s2 hg2 _ => ?_
    have he2 := he.grows hg2
    refine keeps_bind (value_keeps hg2.1 he2 this) fun r s3 hg3 hr => ?_
    have he3 := he2.grows hg3
    refine keeps_bind (values_keeps hg3.1 he3 args) fun as s4 hg4 has => ?_
    refine keeps_bind (enter_keeps hg4.1 (he3.grows hg4)) fun _ s5 hg5 _ => ?_
    have hcall := (Run.machine_keeps fuel).callWith f r as s5.world hg5.1.world
      ((hr.grows hg4).grows hg5) fun a ha => (has a ha).grows hg5
    refine keeps_bind (keeps_machine hg5.1 hcall) fun v s6 hg6 _ => ?_
    exact shown_keeps hg6.1
  | setPrototype object proto =>
    dsimp only [perform]
    refine keeps_bind (env_keeps hs) fun e s1 hg1 he => ?_
    refine keeps_bind (value_keeps hg1.1 he object) fun x s2 hg2 _ => ?_
    cases x with
    | undefined | null | bool _ | str _ | num _ => exact keeps_throw hg2.1
    | obj id =>
      refine keeps_bind (value_keeps hg2.1 (he.grows hg2) proto) fun y s3 hg3 hy => ?_
      -- an object and `null` both reach the same relink
      have htail : ∀ (p : Option ObjId) (s' : Session), s'.Sound →
          (∀ q, p = some q → q < s'.world.objs.size) →
          Keeps (machine (World.setProto id p) >>= fun b => shown (.bool b)) s' fun _ _ => True := by
        intro p s' h' hp
        exact keeps_bind (keeps_machine h' (Run.setProto_keeps h'.world hp))
          fun _ s4 hg4 _ => shown_keeps hg4.1
      cases y with
      | obj pid =>
        refine keeps_pure_bind (htail _ _ hg3.1 fun q hq => ?_)
        cases hq
        exact hy
      | null => exact keeps_pure_bind (htail _ _ hg3.1 fun q hq => nomatch hq)
      | undefined | bool _ | str _ | num _ => exact keeps_throw_bind hg3.1
  | parse src =>
    dsimp only [perform]
    split
    · exact keeps_pure hs trivial
    · exact keeps_pure hs trivial

/-! ## Answers and reachable sessions -/

/-- An answer keeps a session sound, whatever the request and however it ends. -/
theorem Sound.answer (hs : s.Sound) (req : Request) : (s.answer req).2.Sound := by
  unfold Session.answer
  dsimp only
  -- the printed text is reset before the request runs
  set s0 : Session := { s with world := { s.world with printed := #[] } }
  have h0 : s0.Sound := hs.with_world (Run.grows_with_printed hs.world)
  have hp : Ends Session.Sound (·.world.objs.size) s0 (fun _ _ => True)
      (perform req.env req.op s0) := perform_keeps h0 req.env req.op
  split
  · next r s' hr =>
    rw [hr] at hp
    exact hp.1.1
  · next r s' hr =>
    rw [hr] at hp
    exact hp.1

theorem start_sound (limits : Limits) : (Session.start limits).Sound where
  world := World.start_sound limits
  nonempty := Nat.lt_of_le_of_lt (Nat.zero_le _) (World.start_sound limits).protoObject
  globals e he := by simp [Session.start] at he

/-- The sessions a host reaches from a fresh one, request by request. -/
inductive Reachable : Session → Prop
  | start (limits : Limits) : Reachable (Session.start limits)
  | answer {s : Session} (req : Request) : Reachable s → Reachable (s.answer req).2

theorem Reachable.sound (h : s.Reachable) : s.Sound := by
  induction h with
  | start limits => exact start_sound limits
  | answer req _ ih => exact ih.answer req

end Session

/-- No session a host reaches has a cycle of prototypes. On any world, `setProto` of an
allocated object `o` to an object `p` answers `false` exactly when `o` is among the first
`maxChain + 1` objects of `p`'s chain, fails exactly when that chain is longer and does not meet
`o`, and otherwise makes `p` the prototype of `o`, whose own chain then has at most `maxChain`
links; refusing and failing leave the world as it was. Unlinking always succeeds. -/
theorem prototypes_acyclic_and_setProto_exact :
    (∀ s : Session, s.Reachable → s.world.Acyclic) ∧
    (∀ (w : World) (o p : ObjId), o < w.objs.size →
      ((∃ i ≤ w.limits.maxChain, w.protoAt p i = some o) ∧
          World.setProto o (some p) w = .ok false w) ∨
      ((¬∃ i ≤ w.limits.maxChain, w.protoAt p i = some o) ∧
          (w.protoAt p w.limits.maxChain).isSome ∧
          World.setProto o (some p) w = .error (.chainTooLong w.limits.maxChain) w) ∨
      ((¬∃ i ≤ w.limits.maxChain, w.protoAt p i = some o) ∧
          w.protoAt p w.limits.maxChain = none ∧
          World.setProto o (some p) w = .ok true (w.relink o (some p)) ∧
          ((w.relink o (some p)).obj o).proto = some p ∧
          (w.relink o (some p)).protoAt o (w.limits.maxChain + 1) = none)) ∧
    (∀ (w : World) (o : ObjId), World.setProto o none w = .ok true (w.relink o none)) := by
  refine ⟨fun s hs => hs.sound.world.acyclic, fun w o p ho => ?_,
    fun w o => World.setProto_none_apply⟩
  rcases World.setProto_some_cases w o p with hin | hlong | ⟨hout, hend, hset⟩
  · exact .inl hin
  · exact .inr (.inl hlong)
  · -- the chain from `p` ends within `maxChain` links, so past them it cannot meet `o` either
    have havoid : ∀ i, w.protoAt p i ≠ some o := by
      intro i hi
      by_cases hle : i ≤ w.limits.maxChain
      · exact hout ⟨i, hle, hi⟩
      · rw [World.protoAt_eq_none_of_le hend (Nat.le_of_not_le hle)] at hi
        cases hi
    have hproto : ((w.relink o (some p)).obj o).proto = some p := by
      rw [World.obj_relink_self ho]
    exact .inr (.inr ⟨hout, hend, hset, hproto, World.protoAt_relink_self ho hend havoid⟩)

theorem fresh_session_prototypes_acyclic :
    (Session.start Limits.standard).Reachable ∧
    (Session.start Limits.standard).world.Acyclic ∧
    0 < (World.start Limits.standard).objs.size ∧
    (((∃ i ≤ (World.start Limits.standard).limits.maxChain,
          (World.start Limits.standard).protoAt 1 i = some 0) ∧
        World.setProto 0 (some 1) (World.start Limits.standard) =
          .ok false (World.start Limits.standard)) ∨
      ((¬∃ i ≤ (World.start Limits.standard).limits.maxChain,
          (World.start Limits.standard).protoAt 1 i = some 0) ∧
        ((World.start Limits.standard).protoAt 1
          (World.start Limits.standard).limits.maxChain).isSome ∧
        World.setProto 0 (some 1) (World.start Limits.standard) =
          .error (.chainTooLong (World.start Limits.standard).limits.maxChain)
            (World.start Limits.standard)) ∨
      ((¬∃ i ≤ (World.start Limits.standard).limits.maxChain,
          (World.start Limits.standard).protoAt 1 i = some 0) ∧
        (World.start Limits.standard).protoAt 1
          (World.start Limits.standard).limits.maxChain = none ∧
        World.setProto 0 (some 1) (World.start Limits.standard) =
          .ok true ((World.start Limits.standard).relink 0 (some 1)) ∧
        (((World.start Limits.standard).relink 0 (some 1)).obj 0).proto = some 1 ∧
        ((World.start Limits.standard).relink 0 (some 1)).protoAt 0
          ((World.start Limits.standard).limits.maxChain + 1) = none)) := by
  have hsize : 0 < (World.start Limits.standard).objs.size := by decide
  exact ⟨.start _, prototypes_acyclic_and_setProto_exact.1 _ (.start _), hsize,
    prototypes_acyclic_and_setProto_exact.2.1 _ 0 1 hsize⟩

end EcmaLite
