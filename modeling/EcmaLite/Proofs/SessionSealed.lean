import EcmaLite.Proofs.MachineSealed
import EcmaLite.Proofs.SessionSound

/-!
# Sessions keep the shared prototypes fixed

A fresh world holds the three shared prototypes as its first objects, each storing only its
built-in methods, and its other objects store no prototype either (`World.start_sealed`). A
session is sealed when its world is and no environment's global object is a shared prototype.
Every request keeps a session sealed, whatever it runs and however it ends: adding environments,
running code entered from one of them, looking names up, binding, relinking prototypes. So in
every session a host reaches the shared prototypes are the objects the fresh world built, and no
value code or a host can hold is one of them (`shared_prototypes_out_of_reach`).
-/

namespace EcmaLite

/-! ## The fresh world -/

/-- An object that is no array and no script function seals when its table does. -/
theorem Obj.seals_of_props {P : Protos} {o : Obj}
    (hk : o.kind = .ordinary ∨ ∃ name k, o.kind = .function name (.native k))
    (h : ∀ kv ∈ o.props, kv.2.NotShared P) : o.Seals P where
  stored x hx := by
    rcases hx with ⟨kv, hkv, rfl⟩ | ⟨es, hes, -⟩
    · exact h kv hkv
    · rcases hk with hk | ⟨name, k, hk⟩ <;> rw [hk] at hes <;> cases hes
  script name code sc g hs := by
    rcases hk with hk | ⟨name, k, hk⟩ <;> rw [hk] at hs <;> cases hs

namespace World

/-- The objects of a fresh world: the object, function and array prototypes, then for each
built-in method its `prototype` object and the method itself. -/
theorem start_objs (L : Limits) : (World.start L).objs = #[
    ⟨.ordinary, .object, [("hasOwnProperty", .obj 4), ("toString", .obj 6)], none⟩,
    ⟨.ordinary, .function, [("call", .obj 8)], some 0⟩,
    ⟨.ordinary, .array, [], some 0⟩,
    ⟨.ordinary, .object, [], some 0⟩,
    ⟨.function "hasOwnProperty" (.native .hasOwnProperty), .function, [("prototype", .obj 3)],
      some 1⟩,
    ⟨.ordinary, .object, [], some 0⟩,
    ⟨.function "toString" (.native .toString), .function, [("prototype", .obj 5)], some 1⟩,
    ⟨.ordinary, .object, [], some 0⟩,
    ⟨.function "call" (.native .call), .function, [("prototype", .obj 7)], some 1⟩] := by
  rfl

theorem start_protos (L : Limits) : (World.start L).protos = ⟨0, 1, 2⟩ := rfl

/-- A fresh world is sealed against its own prototypes, as it built them. -/
theorem start_sealed (L : Limits) :
    (World.start L).Sealed (World.start L).protos (World.start L).obj where
  protos := rfl
  shared _ _ := rfl
  allocated p hp := by
    rw [start_objs]
    rw [start_protos] at hp
    rcases hp with rfl | rfl | rfl <;> decide
  objs id := by
    unfold World.obj
    rw [start_objs]
    rcases Nat.lt_or_ge id 9 with hid | hid
    · -- the shared prototypes store their methods, the methods their `prototype` objects
      interval_cases id <;> exact Obj.seals_of_props (by simp) (by simp [Protos.Has, start_protos])
    · rw [Array.getElem?_eq_none (by simpa using hid)]
      exact Obj.seals_of_props (.inl rfl) fun kv hkv => by cases hkv
  bound s kv hkv := by
    have hs : (World.start L).scope s = default := by
      simp [World.scope, show (World.start L).scopes = #[] from rfl]
    rw [hs] at hkv
    cases hkv
  callerThis := trivial

end World

namespace Session

variable {P : Protos} {O : ObjId → Obj} {α : Type} {s : Session}

/-- The world is sealed, and no environment's global object is a shared prototype. -/
structure Sealed (P : Protos) (O : ObjId → Obj) (s : Session) : Prop where
  world : s.world.Sealed P O
  globals : ∀ e ∈ s.envs, ¬ P.Has e.global

/-- Running `x` from `s` keeps the session sealed, and what it returns satisfies `Q`. -/
abbrev Seals (P : Protos) (O : ObjId → Obj) (x : Host α) (s : Session)
    (Q : α → Session → Prop) : Prop :=
  EcmaLite.Keeps (Session.Sealed P O) (fun _ => 0) x s Q

theorem Sealed.grows {s' : Session} (h : s'.Sealed P O) :
    EcmaLite.Grows (Session.Sealed P O) (fun _ => 0) s s' :=
  ⟨h, Nat.le_refl 0⟩

theorem Sealed.with_world (hs : s.Sealed P O) {w : World} (hw : w.Sealed P O) :
    { s with world := w }.Sealed P O :=
  ⟨hw, hs.globals⟩

/-- Machine code that keeps the world sealed keeps the session sealed. -/
theorem seals_machine {r : Run α} {Q : α → World → Prop} (hs : s.Sealed P O)
    (hr : EcmaLite.Keeps (World.Sealed P O) (fun _ => 0) r s.world Q) :
    Seals P O (machine r) s fun a s' => Q a s'.world := by
  show Ends (Session.Sealed P O) (fun _ => 0) s _ (machine r s)
  unfold machine
  have hr' : Ends (World.Sealed P O) (fun _ => 0) s.world Q (r s.world) := hr
  cases hres : r s.world with
  | ok a w =>
    rw [hres] at hr'
    exact ⟨Sealed.grows (hs.with_world hr'.1.1), hr'.2⟩
  | error f w =>
    rw [hres] at hr'
    exact Sealed.grows (s := s) (hs.with_world hr'.1)

/-- Code that runs sealed keeps its world sealed. -/
theorem sealed_of_seals {r : Run α} {w : World} {Q : α → World → Prop}
    (hr : Run.Seals P O r w Q) : EcmaLite.Keeps (World.Sealed P O) (fun _ => 0) r w Q :=
  Keeps.weaken hr fun _ h => h.toSealed

theorem sealed_lift {w : World} {e : Except Fault α} {Q : α → World → Prop}
    (hw : w.Sealed P O) (h : ∀ a, e = .ok a → Q a w) :
    EcmaLite.Keeps (World.Sealed P O) (fun _ => 0) (Run.lift e) w Q := by
  cases e with
  | error f => exact keeps_throw hw
  | ok a => exact keeps_pure hw (h a rfl)

theorem sealed_newScope {w : World} (hw : w.Sealed P O) {outer : Option ScopeId} :
    EcmaLite.Keeps (World.Sealed P O) (fun _ => 0) (Run.make (World.newScope outer)) w
      fun _ _ => True :=
  ⟨⟨hw.newScope, Nat.le_refl 0⟩, trivial⟩

/-! ## Environments -/

theorem size_addEnvs (n : Nat) : (s.addEnvs n).envs.size = s.envs.size + n := by
  induction n with
  | zero => rfl
  | succ n ih =>
    simp only [addEnvs, addEnv, Array.size_push, ih]
    omega

/-- A new environment's global object is fresh, so no shared prototype. -/
theorem Sealed.addEnv (hs : s.Sealed P O) : s.addEnv.Sealed P O := by
  unfold Session.addEnv
  dsimp only
  obtain ⟨hw, hg⟩ := hs.world.allocGlobal
  refine ⟨hw.newScope, fun e he => ?_⟩
  rcases Array.mem_push.mp he with he | rfl
  · exact hs.globals e he
  · exact hg

theorem Sealed.addEnvs (hs : s.Sealed P O) (n : Nat) : (s.addEnvs n).Sealed P O := by
  induction n with
  | zero => exact hs
  | succ n ih => exact ih.addEnv

/-- The environment a request names is made when missing, so it is one of the session's, and
its global object is no shared prototype. -/
theorem env_seals (hs : s.Sealed P O) {k : Nat} :
    Seals P O (env k) s fun e _ => ¬ P.Has e.global := by
  unfold env
  have hadd := hs.addEnvs (k + 1 - s.envs.size)
  refine keeps_modify_bind (Sealed.grows hadd) (keeps_get_bind (keeps_pure hadd ?_))
  show ¬ P.Has ((s.addEnvs (k + 1 - s.envs.size)).envs[k]?.getD ⟨0, 0, none⟩).global
  have hk : k < (s.addEnvs (k + 1 - s.envs.size)).envs.size := by
    rw [size_addEnvs]
    omega
  rw [Array.getElem?_eq_getElem hk, Option.getD_some]
  exact hadd.globals _ (Array.getElem_mem hk)

/-! ## Running code -/

variable {e : Env}

/-- Entering an environment whose global object is no shared prototype lets code run sealed. -/
theorem enter_seals (hs : s.Sealed P O) (he : ¬ P.Has e.global) {sc : ScopeId} :
    Seals P O (enter e sc) s fun _ s' => s'.world.Running P O := by
  have hw : World.Running P O { s.world with
      ctx := ⟨e.global, s.world.ctx.depth, sc, .obj e.global⟩ } :=
    ⟨hs.world.with_ctx (Value.notShared_obj.mpr he), he⟩
  exact ⟨Sealed.grows (hs.with_world hw.toSealed), hw⟩

theorem evalIn_seals (hs : s.Sealed P O) (he : ¬ P.Has e.global) {src : String}
    {sc : ScopeId} : Seals P O (evalIn e src sc) s fun v _ => v.NotShared P := by
  unfold Session.evalIn
  refine keeps_bind (enter_seals hs he) fun _ s' hg hrun => ?_
  exact seals_machine hg.1 (sealed_of_seals
    ((Run.machine_seals fuel).evalIn src sc _ s'.world hrun (Value.notShared_obj.mpr he)))

theorem lookup_seals (hs : s.Sealed P O) {name : String} :
    Seals P O (lookup e name) s fun v _ => v.NotShared P := by
  unfold lookup
  refine keeps_get_bind ?_
  dsimp only
  split
  · next v hv => exact keeps_pure hs (hs.world.resolve hv)
  · exact seals_machine hs
      (sealed_lift (Q := fun v _ => v.NotShared P) hs.world fun v hv => hs.world.getProp hv)

theorem scopeNamed_seals (hs : s.Sealed P O) {name : String} :
    Seals P O (scopeNamed e name) s fun _ _ => True := by
  unfold scopeNamed
  split
  · exact keeps_pure hs trivial
  · refine keeps_get_bind ?_
    split
    · exact keeps_pure hs trivial
    · exact keeps_throw hs

/-- A value a host writes is no shared prototype once it is made. -/
theorem value_seals (hs : s.Sealed P O) (he : ¬ P.Has e.global) :
    ∀ v : Spec, Seals P O (value e v) s fun a _ => a.NotShared P
  | .lookup _ => lookup_seals hs
  | .eval _ => evalIn_seals hs he
  | .undefined | .null | .bool _ | .str _ | .numeral .. | .num _ => keeps_pure hs trivial

theorem values_seals (hs : s.Sealed P O) (he : ¬ P.Has e.global) (vs : List Spec) :
    Seals P O (values e vs) s fun as _ => ∀ a ∈ as, a.NotShared P := by
  induction vs generalizing s with
  | nil => exact keeps_pure hs fun _ h => nomatch h
  | cons v vs ih =>
    refine keeps_bind (value_seals hs he v) fun a s1 hg1 ha => ?_
    refine keeps_bind (ih hg1.1) fun as s2 hg2 has => ?_
    refine keeps_pure hg2.1 fun x hx => ?_
    rcases List.mem_cons.mp hx with rfl | hx
    · exact ha
    · exact has x hx

theorem runLast_seals (hs : s.Sealed P O) (he : ¬ P.Has e.global) :
    Seals P O (runLast e) s fun v _ => v.NotShared P := by
  unfold runLast
  split
  · exact keeps_throw hs
  · next code _ =>
    refine keeps_bind (seals_machine hs (sealed_newScope hs.world)) fun sc s1 hg1 _ => ?_
    refine keeps_bind (enter_seals hg1.1 he) fun _ s2 hg2 hrun => ?_
    exact seals_machine hg2.1 (sealed_of_seals ((Run.machine_seals fuel).invoke code e.global sc
      _ [] s2.world hrun he (Value.notShared_obj.mpr he) fun _ h => nomatch h))

theorem shown_seals (hs : s.Sealed P O) {v : Value} : Seals P O (shown v) s fun _ _ => True :=
  keeps_get_bind (keeps_pure hs trivial)

/-! ## Requests -/

/-- Every operation keeps a session sealed, whether it answers or fails. -/
theorem perform_seals (hs : s.Sealed P O) (k : Nat) (op : Op) :
    Seals P O (perform k op) s fun _ _ => True := by
  cases op with
  | eval src =>
    dsimp only [perform]
    refine keeps_bind (env_seals hs) fun e s1 hg1 he => ?_
    refine keeps_bind (evalIn_seals hg1.1 he) fun v s2 hg2 _ => ?_
    exact shown_seals hg2.1
  | evalIn src scope =>
    dsimp only [perform]
    refine keeps_bind (env_seals hs) fun e s1 hg1 he => ?_
    refine keeps_bind (scopeNamed_seals hg1.1) fun sc s2 hg2 _ => ?_
    refine keeps_bind (evalIn_seals hg2.1 he) fun v s3 hg3 _ => ?_
    exact shown_seals hg3.1
  | newScope name parent =>
    dsimp only [perform]
    refine keeps_bind (env_seals hs) fun e s1 hg1 _ => ?_
    -- the three ways to name the outer scope share what follows
    have htail : ∀ (outer : Option ScopeId) (s' : Session), s'.Sealed P O →
        Seals P O (do
          let sc ← machine (Run.make (World.newScope outer))
          modify fun s : Session => { s with named := (name, sc) :: s.named }
          pure Reply.ok) s' fun _ _ => True := by
      intro outer s' h'
      refine keeps_bind (seals_machine h' (sealed_newScope h'.world)) fun sc s3 hg3 _ => ?_
      have h4 : Session.Sealed P O { s3 with named := (name, sc) :: s3.named } :=
        ⟨hg3.1.world, hg3.1.globals⟩
      exact keeps_modify_bind (Sealed.grows h4) (keeps_pure h4 trivial)
    split
    · exact keeps_throw_bind hg1.1
    · split
      · exact keeps_pure_bind (htail _ _ hg1.1)
      · exact keeps_pure_bind (htail _ _ hg1.1)
      · refine keeps_bind (keeps_map (R := fun _ _ => True) (scopeNamed_seals hg1.1)
          fun _ _ _ _ => trivial) fun outer s2 hg2 _ => htail outer s2 hg2.1
  | bind scope name v =>
    dsimp only [perform]
    refine keeps_bind (env_seals hs) fun e s1 hg1 he => ?_
    refine keeps_bind (scopeNamed_seals hg1.1) fun sc s2 hg2 _ => ?_
    refine keeps_bind (value_seals hg2.1 he v) fun a s3 hg3 ha => ?_
    have hbind : EcmaLite.Keeps (World.Sealed P O) (fun _ => 0)
        (modify (World.bind sc name a) : Run PUnit) s3.world fun _ _ => True :=
      keeps_modify ⟨hg3.1.world.bind ha, Nat.le_refl 0⟩
    refine keeps_bind (seals_machine hg3.1 hbind) fun _ s4 hg4 _ => ?_
    exact keeps_pure hg4.1 trivial
  | resolve scope name =>
    dsimp only [perform]
    refine keeps_bind (env_seals hs) fun e s1 hg1 he => ?_
    refine keeps_bind (scopeNamed_seals hg1.1) fun sc s2 hg2 _ => ?_
    refine keeps_get_bind ?_
    split
    · exact shown_seals hg2.1
    · exact keeps_pure hg2.1 trivial
  | evaluate src =>
    dsimp only [perform]
    refine keeps_bind (env_seals hs) fun _ s1 hg1 _ => ?_
    refine keeps_bind (seals_machine hg1.1 (sealed_lift (Q := fun _ _ => True) hg1.1.world
      fun _ _ => trivial)) fun code s2 hg2 _ => ?_
    -- the slot and the handle change; the world and the global objects do not
    have h3 : Sealed P O { s2 with
        envs := s2.envs.modify k fun e => { e with script := some code }
        handles := s2.handles.push k } := by
      refine ⟨hg2.1.world, fun e he => ?_⟩
      obtain ⟨i, hi⟩ := Array.mem_iff_getElem?.mp he
      rw [Array.getElem?_modify] at hi
      split at hi
      · obtain ⟨e0, he0, rfl⟩ := Option.map_eq_some_iff.mp hi
        exact hg2.1.globals e0 (Array.mem_of_getElem? he0)
      · exact hg2.1.globals e (Array.mem_of_getElem? hi)
    exact keeps_get_bind (keeps_set_bind (Sealed.grows h3) (keeps_pure h3 trivial))
  | invoke h target =>
    dsimp only [perform]
    refine keeps_get_bind ?_
    split
    · exact keeps_throw hs
    · refine keeps_bind (env_seals hs) fun e s1 hg1 he => ?_
      split
      · exact keeps_throw_bind hg1.1
      · exact keeps_bind (runLast_seals hg1.1 he) fun _ s2 hg2 _ => shown_seals hg2.1
  | runLast =>
    dsimp only [perform]
    refine keeps_bind (env_seals hs) fun e s1 hg1 he => ?_
    refine keeps_bind (runLast_seals hg1.1 he) fun v s2 hg2 _ => ?_
    exact shown_seals hg2.1
  | lookup name =>
    dsimp only [perform]
    refine keeps_bind (env_seals hs) fun e s1 hg1 he => ?_
    refine keeps_bind (lookup_seals hg1.1) fun v s2 hg2 _ => ?_
    exact shown_seals hg2.1
  | call fn this args =>
    dsimp only [perform]
    refine keeps_bind (env_seals hs) fun e s1 hg1 he => ?_
    refine keeps_bind (value_seals hg1.1 he fn) fun f s2 hg2 _ => ?_
    refine keeps_bind (value_seals hg2.1 he this) fun r s3 hg3 hr => ?_
    refine keeps_bind (values_seals hg3.1 he args) fun as s4 hg4 has => ?_
    refine keeps_bind (enter_seals hg4.1 he) fun _ s5 hg5 hrun => ?_
    have hcall := (Run.machine_seals fuel).callWith f r as s5.world hrun hr has
    refine keeps_bind (seals_machine hg5.1 (sealed_of_seals hcall)) fun v s6 hg6 _ => ?_
    exact shown_seals hg6.1
  | setPrototype object proto =>
    dsimp only [perform]
    refine keeps_bind (env_seals hs) fun e s1 hg1 he => ?_
    refine keeps_bind (value_seals hg1.1 he object) fun x s2 hg2 hx => ?_
    cases x with
    | undefined | null | bool _ | str _ | num _ => exact keeps_throw hg2.1
    | obj id =>
      -- the object relinked is one the host obtained, so no shared prototype
      have htail : ∀ (p : Option ObjId) (s' : Session), s'.Sealed P O →
          Seals P O (machine (World.setProto id p) >>= fun b => shown (.bool b)) s'
            fun _ _ => True := by
        intro p s' h'
        have hset : EcmaLite.Keeps (World.Sealed P O) (fun _ => 0) (World.setProto id p)
            s'.world fun _ _ => True := by
          show Ends (World.Sealed P O) (fun _ => 0) s'.world _ (World.setProto id p s'.world)
          cases hr : World.setProto id p s'.world with
          | ok b w' => exact ⟨⟨h'.world.setProto hx hr, Nat.le_refl 0⟩, trivial⟩
          | error f w' =>
            rw [World.setProto_error_world hr]
            exact ⟨h'.world, Nat.le_refl 0⟩
        exact keeps_bind (seals_machine h' hset) fun _ s4 hg4 _ => shown_seals hg4.1
      refine keeps_bind (value_seals hg2.1 he proto) fun y s3 hg3 _ => ?_
      cases y with
      | obj pid => exact keeps_pure_bind (htail _ _ hg3.1)
      | null => exact keeps_pure_bind (htail _ _ hg3.1)
      | undefined | bool _ | str _ | num _ => exact keeps_throw_bind hg3.1
  | parse src =>
    dsimp only [perform]
    split
    · exact keeps_pure hs trivial
    · exact keeps_pure hs trivial

/-! ## Answers and reachable sessions -/

/-- An answer keeps a session sealed, whatever the request and however it ends. -/
theorem Sealed.answer (hs : s.Sealed P O) (req : Request) : (s.answer req).2.Sealed P O := by
  unfold Session.answer
  dsimp only
  -- the printed text is reset before the request runs
  have h0 : Session.Sealed P O { s with world := { s.world with printed := #[] } } :=
    hs.with_world hs.world.with_printed
  have hp : Ends (Session.Sealed P O) (fun _ => 0)
      { s with world := { s.world with printed := #[] } } (fun _ _ => True)
      (perform req.env req.op { s with world := { s.world with printed := #[] } }) :=
    perform_seals h0 req.env req.op
  split
  · next r s' hr =>
    rw [hr] at hp
    exact hp.1.1
  · next r s' hr =>
    rw [hr] at hp
    exact hp.1

theorem start_sealed (limits : Limits) :
    (Session.start limits).Sealed (World.start limits).protos (World.start limits).obj :=
  ⟨World.start_sealed limits, fun e he => by simp [Session.start] at he⟩

/-- Every session a host reaches is sealed against the prototypes of the fresh world it came
from, as that world built them. -/
theorem Reachable.sealed (h : s.Reachable) :
    ∃ L : Limits, s.Sealed (World.start L).protos (World.start L).obj := by
  induction h with
  | start limits => exact ⟨limits, start_sealed limits⟩
  | answer req _ ih =>
    obtain ⟨L, hL⟩ := ih
    exact ⟨L, hL.answer req⟩

end Session

/-- No value a host or a script can hold is one of the shared prototypes, so they stay as the
fresh world built them. In every session a host reaches, the prototypes are objects `0`, `1`
and `2` with their built-in tables and links, no property, element, binding or caller receiver
holds one of them, and no environment's global object is one. On any world sealed against
prototypes `P`, every instruction and every call leaves them untouched and holds none of them
on the operand stack, as the receiver, as the completion value or as its result. -/
theorem shared_prototypes_out_of_reach :
    (∀ s : Session, s.Reachable →
      s.world.protos = ⟨0, 1, 2⟩ ∧
      s.world.obj 0 =
        ⟨.ordinary, .object, [("hasOwnProperty", .obj 4), ("toString", .obj 6)], none⟩ ∧
      s.world.obj 1 = ⟨.ordinary, .function, [("call", .obj 8)], some 0⟩ ∧
      s.world.obj 2 = ⟨.ordinary, .array, [], some 0⟩ ∧
      (∀ id x, (s.world.obj id).Stores x → x.NotShared ⟨0, 1, 2⟩) ∧
      (∀ sc, ∀ kv ∈ (s.world.scope sc).vars, kv.2.NotShared ⟨0, 1, 2⟩) ∧
      s.world.ctx.callerThis.NotShared ⟨0, 1, 2⟩ ∧
      (∀ e ∈ s.envs, (Value.obj e.global).NotShared ⟨0, 1, 2⟩)) ∧
    (∀ (P : Protos) (O : ObjId → Obj) (n : Nat) (fr : Frame) (i : Instr) (w : World),
      w.Running P O → fr.Unshared P → Run.Seals P O (step n fr i) w fun nx _ => nx.Unshared P) ∧
    (∀ (P : Protos) (O : ObjId → Obj) (n : Nat) (f this : Value) (args : List Value)
      (w : World), w.Running P O → this.NotShared P → (∀ v ∈ args, v.NotShared P) →
      Run.Seals P O (callWith n f this args) w fun v _ => v.NotShared P) := by
  refine ⟨fun s hs => ?_, fun P O n fr i w hw hfr => (Run.machine_seals n).step fr i w hw hfr,
    fun P O n f this args w hw hthis hargs =>
      (Run.machine_seals n).callWith f this args w hw hthis hargs⟩
  obtain ⟨L, hL⟩ := hs.sealed
  rw [World.start_protos L] at hL
  refine ⟨hL.world.protos, ?_, ?_, ?_, fun id => (hL.world.objs id).stored, hL.world.bound,
    hL.world.callerThis, fun e he => Value.notShared_obj.mpr (hL.globals e he)⟩
  -- the shared prototypes are those of the fresh world, read off its object table
  · rw [hL.world.shared 0 (.inl rfl), World.obj, World.start_objs]
    rfl
  · rw [hL.world.shared 1 (.inr (.inl rfl)), World.obj, World.start_objs]
    rfl
  · rw [hL.world.shared 2 (.inr (.inr rfl)), World.obj, World.start_objs]
    rfl

theorem fresh_session_holds_no_prototype :
    (Session.start Limits.standard).Reachable ∧
    (Session.start Limits.standard).world.obj 1 =
      ⟨.ordinary, .function, [("call", .obj 8)], some 0⟩ ∧
    World.Running ⟨0, 1, 2⟩ (World.start Limits.standard).obj
      { World.start Limits.standard with ctx := ⟨3, 0, 0, .undefined⟩ } ∧
    Frame.Unshared ⟨0, 1, 2⟩ ⟨default, 0, [], 0, .obj 3, .undefined, 3⟩ ∧
    Run.Seals ⟨0, 1, 2⟩ (World.start Limits.standard).obj
      (step 8 ⟨default, 0, [], 0, .obj 3, .undefined, 3⟩ (.call 0))
      { World.start Limits.standard with ctx := ⟨3, 0, 0, .undefined⟩ }
      (fun nx _ => nx.Unshared ⟨0, 1, 2⟩) := by
  -- object `3` is the plain `prototype` object of a built-in method, no shared prototype
  have hthree : ¬ Protos.Has ⟨0, 1, 2⟩ 3 := by simp [Protos.Has]
  have hw : World.Running ⟨0, 1, 2⟩ (World.start Limits.standard).obj
      { World.start Limits.standard with ctx := ⟨3, 0, 0, .undefined⟩ } :=
    ⟨(World.start_sealed Limits.standard).with_ctx trivial, hthree⟩
  have hfr : Frame.Unshared ⟨0, 1, 2⟩ ⟨default, 0, [], 0, .obj 3, .undefined, 3⟩ :=
    ⟨(fun _ h => nomatch h), Value.notShared_obj.mpr hthree, trivial, hthree⟩
  have hreach : (Session.start Limits.standard).Reachable := .start _
  exact ⟨hreach, (shared_prototypes_out_of_reach.1 _ hreach).2.2.1, hw, hfr,
    shared_prototypes_out_of_reach.2.1 _ _ 8 _ (.call 0) _ hw hfr⟩

end EcmaLite
