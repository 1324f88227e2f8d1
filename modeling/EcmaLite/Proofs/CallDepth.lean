import EcmaLite.Proofs.Steady
import EcmaLite.Proofs.SessionSound

/-!
# Counting the calls that run

`World.ctx.depth` counts the calls running. `callWith` alone changes it: it refuses to start a
call when `maxCallDepth` calls are running, and otherwise counts the call while it runs and
uncounts it however the call ends, with a value or with a fault that any depth below raised.

The runners of the machine are mutually recursive and take fuel, so what they keep is proved for
all of them at once by induction on the fuel (`Run.machine_depth`): every run ends with the count
it started with and under the same limits, whether it returns or stops with a fault. Steps that
make no call leave the count alone because they leave the whole running context alone
(`Proofs.Steady`); a call adds one and takes it off again. A host leaves the count as it finds
it when it enters an environment, so every session a host reaches has no call running
(`Session.Reachable.depth`).
-/

namespace EcmaLite

/-- The world with `d` calls running. -/
def World.withDepth (w : World) (d : Nat) : World := { w with ctx := { w.ctx with depth := d } }

/-- `w` runs `d` calls under limits `L`. -/
def World.DepthIs (d : Nat) (L : Limits) (w : World) : Prop := w.ctx.depth = d ∧ w.limits = L

/-- The count of calls and the limits are part of the frame. -/
theorem World.DepthIs.of_frame {d : Nat} {L : Limits} {w w' : World} (h : w'.frame = w.frame)
    (hw : w.DepthIs d L) : w'.DepthIs d L := by
  simp only [World.frame, Prod.mk.injEq] at h
  exact ⟨h.1 ▸ hw.1, h.2.1 ▸ hw.2⟩

namespace Run

/-- The world a run ends in, with a result or with a fault. -/
def final {α : Type} : EStateM.Result Fault World α → World
  | .ok _ w => w
  | .error _ w => w

/-- A result whose world `g` changes. -/
def mapFinal {α : Type} (g : World → World) :
    EStateM.Result Fault World α → EStateM.Result Fault World α
  | .ok a w => .ok a (g w)
  | .error e w => .error e (g w)

/-- Running `x` from `w` ends, with a result or with a fault, with `d` calls running under
limits `L`. -/
abbrev KeepsDepth {α : Type} (d : Nat) (L : Limits) (x : Run α) (w : World) : Prop :=
  EcmaLite.Keeps (World.DepthIs d L) (fun _ => 0) x w fun _ _ => True

variable {α : Type} {d : Nat} {L : Limits} {w : World} {x : Run α}

theorem KeepsDepth.final (h : KeepsDepth d L x w) : (final (x w)).DepthIs d L := by
  have h : Ends (World.DepthIs d L) (fun _ => 0) w (fun _ _ => True) (x w) := h
  cases hr : x w with
  | ok a w' =>
    rw [hr] at h
    exact h.1.1
  | error e w' =>
    rw [hr] at h
    exact h.1

/-- A steady run keeps the count of calls and the limits, which are part of the frame. -/
theorem Steady.keepsDepth (h : Steady w.frame x w) (hw : w.DepthIs d L) : KeepsDepth d L x w :=
  h.weaken fun _ hw' => hw.of_frame hw'

theorem exposeCaller_depth (hw : w.DepthIs d L) {fr : Frame} : KeepsDepth d L (exposeCaller fr) w :=
  keeps_modify ⟨hw, Nat.le_refl 0⟩

/-! ## One call -/

variable {n : Nat} {id : ObjId} {this : Value} {args : List Value}

/-- A call of a value that is no function stops at once. -/
theorem callWith_not_callable {f : Value} (hf : ∀ id, f = .obj id → (w.obj id).isCallable = false) :
    callWith (n + 1) f this args w = .error (.notCallable (w.text f)) w := by
  simp only [callWith]
  rw [Run.get_bind_apply]
  cases f with
  | obj id =>
    simp only [hf id rfl, Bool.not_false, if_true]
    rfl
  | _ => rfl

/-- A call started while `maxCallDepth` calls run stops at once, before any code runs. -/
theorem callWith_at_limit (hc : (w.obj id).isCallable = true)
    (hd : w.limits.maxCallDepth ≤ w.ctx.depth) :
    callWith (n + 1) (.obj id) this args w = .error (.callDepth w.limits.maxCallDepth) w := by
  simp only [callWith]
  rw [Run.get_bind_apply]
  simp only [hc, Bool.not_true, Bool.false_eq_true, if_false, ge_iff_le, hd, if_true]
  rfl

/-- Below the limit, the call runs counted: with one more call running, and the count taken
back off however it ends. -/
theorem callWith_counted (hc : (w.obj id).isCallable = true)
    (hd : w.ctx.depth < w.limits.maxCallDepth) :
    callWith (n + 1) (.obj id) this args w =
      mapFinal (fun w' => w'.withDepth (w'.ctx.depth - 1))
        (callObject n id this args (w.withDepth (w.ctx.depth + 1))) := by
  simp only [callWith]
  rw [Run.get_bind_apply]
  simp only [hc, Bool.not_true, Bool.false_eq_true, if_false, ge_iff_le, Nat.not_le.mpr hd]
  show EStateM.bind (EStateM.tryCatch (callObject n id this args) _) _
    (w.withDepth (w.ctx.depth + 1)) = _
  simp only [EStateM.bind, EStateM.tryCatch]
  cases callObject n id this args (w.withDepth (w.ctx.depth + 1)) <;> rfl

/-- Taking one call off a world that runs `D + 1` calls leaves `D`. -/
theorem mapFinal_uncount {D : Nat} {r : EStateM.Result Fault World α}
    (h : (final r).ctx.depth = D + 1) :
    mapFinal (fun w' => w'.withDepth (w'.ctx.depth - 1)) r = mapFinal (·.withDepth D) r := by
  cases r with
  | ok a w' =>
    simp only [final] at h
    simp only [mapFinal, h, Nat.add_sub_cancel]
  | error e w' =>
    simp only [final] at h
    simp only [mapFinal, h, Nat.add_sub_cancel]

/-! ## Every runner keeps the count -/

/-- What the runners keep at fuel `n`: each ends with the count of calls it started with and
under the same limits. -/
structure MachineDepth (n : Nat) : Prop where
  exec : ∀ d L fr w, w.DepthIs d L → KeepsDepth d L (exec n fr) w
  step : ∀ d L fr i w, w.DepthIs d L → KeepsDepth d L (step n fr i) w
  callWith : ∀ d L f this args w, w.DepthIs d L → KeepsDepth d L (callWith n f this args) w
  callObject : ∀ d L id this args w, w.DepthIs d L →
    KeepsDepth d L (callObject n id this args) w
  invoke : ∀ d L code global s this args w, w.DepthIs d L →
    KeepsDepth d L (invoke n code global s this args) w
  construct : ∀ d L f args w, w.DepthIs d L → KeepsDepth d L (construct n f args) w
  evalIn : ∀ d L src s this w, w.DepthIs d L → KeepsDepth d L (evalIn n src s this) w
  native : ∀ d L k this args w, w.DepthIs d L → KeepsDepth d L (native n k this args) w

theorem machineDepth_zero : MachineDepth 0 where
  exec _ _ _ _ hw := by
    simp only [exec]
    exact keeps_throw hw
  step _ _ _ _ _ hw := by
    simp only [step]
    exact keeps_throw hw
  callWith _ _ _ _ _ _ hw := by
    simp only [callWith]
    exact keeps_throw hw
  callObject _ _ _ _ _ _ hw := by
    simp only [callObject]
    exact keeps_throw hw
  invoke _ _ _ _ _ _ _ _ hw := by
    simp only [invoke]
    exact keeps_throw hw
  construct _ _ _ _ _ hw := by
    simp only [construct]
    exact keeps_throw hw
  evalIn _ _ _ _ _ _ hw := by
    simp only [evalIn]
    exact keeps_throw hw
  native _ _ _ _ _ _ hw := by
    simp only [native]
    exact keeps_throw hw

/-- An instruction keeps the count, given that the calls it makes do. -/
theorem step_depth
    (hcall : ∀ f this args w, w.DepthIs d L → KeepsDepth d L (callWith n f this args) w)
    (hcons : ∀ f args w, w.DepthIs d L → KeepsDepth d L (construct n f args) w)
    (hw : w.DepthIs d L) (fr : Frame) (i : Instr) : KeepsDepth d L (step (n + 1) fr i) w := by
  cases hi : i.makesCall
  · exact (step_steady rfl hi).keepsDepth hw
  · cases i <;> simp only [Instr.makesCall, Bool.false_eq_true] at hi
    case call c =>
      simp only [step]
      refine keeps_bind (exposeCaller_depth hw) fun _ w1 h1 _ => keeps_get_bind ?_
      exact keeps_bind (hcall _ _ _ w1 h1.1) fun _ _ h2 _ => keeps_pure h2.1 trivial
    case callMethod c =>
      simp only [step]
      refine keeps_bind (exposeCaller_depth hw) fun _ w1 h1 _ => ?_
      exact keeps_bind (hcall _ _ _ w1 h1.1) fun _ _ h2 _ => keeps_pure h2.1 trivial
    case construct c =>
      simp only [step]
      refine keeps_bind (exposeCaller_depth hw) fun _ w1 h1 _ => ?_
      exact keeps_bind (hcons _ _ w1 h1.1) fun _ _ h2 _ => keeps_pure h2.1 trivial

variable {fr : Frame}

/-- A frame runs instruction after instruction, each keeping the count. -/
theorem exec_depth_succ (ih : MachineDepth n) (hw : w.DepthIs d L) :
    KeepsDepth d L (exec (n + 1) fr) w := by
  show Ends (World.DepthIs d L) (fun _ => 0) w (fun _ _ => True) (exec (n + 1) fr w)
  simp only [exec]
  split
  · exact ⟨⟨hw, Nat.le_refl 0⟩, trivial⟩
  · rename_i i _
    have hs : Ends (World.DepthIs d L) (fun _ => 0) w (fun _ _ => True)
        (step n { fr with ip := fr.ip + 1 } i w) :=
      ih.step d L { fr with ip := fr.ip + 1 } i w hw
    cases hr : step n { fr with ip := fr.ip + 1 } i w with
    | ok nx w' =>
      rw [hr] at hs
      cases nx with
      | go fr' => exact (ih.exec d L fr' w' hs.1.1).of_grows hs.1
      | finish v => exact hs
    | error e w' =>
      rw [hr] at hs
      exact hs

/-- The count one call adds is taken off again, whatever the call does. -/
theorem callWith_depth_succ (ih : MachineDepth n) {f : Value} (hw : w.DepthIs d L) :
    KeepsDepth d L (callWith (n + 1) f this args) w := by
  show Ends (World.DepthIs d L) (fun _ => 0) w (fun _ _ => True) (callWith (n + 1) f this args w)
  by_cases hf : ∀ id, f = .obj id → (w.obj id).isCallable = false
  · rw [callWith_not_callable hf]
    exact ⟨hw, Nat.le_refl 0⟩
  · obtain ⟨id, rfl, hc⟩ : ∃ id, f = .obj id ∧ (w.obj id).isCallable = true := by
      simpa using hf
    by_cases hd : w.ctx.depth < w.limits.maxCallDepth
    · rw [callWith_counted hc hd]
      -- the callee runs with `d + 1` calls and ends with them
      have hin : (w.withDepth (w.ctx.depth + 1)).DepthIs (d + 1) L :=
        ⟨congrArg (· + 1) hw.1, hw.2⟩
      have hcall := (ih.callObject (d + 1) L id this args _ hin).final
      cases hr : callObject n id this args (w.withDepth (w.ctx.depth + 1)) with
      | ok v w' =>
        obtain ⟨hd', hl'⟩ : w'.DepthIs (d + 1) L := by rw [hr] at hcall; exact hcall
        exact ⟨⟨⟨by simp [World.withDepth, hd'], hl'⟩, Nat.le_refl 0⟩, trivial⟩
      | error e w' =>
        obtain ⟨hd', hl'⟩ : w'.DepthIs (d + 1) L := by rw [hr] at hcall; exact hcall
        exact ⟨⟨by simp [World.withDepth, hd'], hl'⟩, Nat.le_refl 0⟩
    · rw [callWith_at_limit hc (Nat.not_lt.mp hd)]
      exact ⟨hw, Nat.le_refl 0⟩

theorem invoke_depth_succ (ih : MachineDepth n) {code : Code} {global : ObjId} {s : ScopeId}
    (hw : w.DepthIs d L) : KeepsDepth d L (invoke (n + 1) code global s this args) w := by
  simp only [invoke]
  exact keeps_bind ((bindParams_steady rfl).keepsDepth hw) fun _ w' hg _ => ih.exec d L _ w' hg.1

theorem callObject_depth_succ (ih : MachineDepth n) (hw : w.DepthIs d L) :
    KeepsDepth d L (callObject (n + 1) id this args) w := by
  simp only [callObject]
  refine keeps_get_bind ?_
  split
  · exact ih.native d L _ _ _ w hw
  · exact keeps_modifyGet_bind ⟨hw, Nat.le_refl 0⟩ (ih.invoke d L _ _ _ _ _ _ hw)
  · exact keeps_get_bind (keeps_throw hw)

theorem construct_depth_succ (ih : MachineDepth n) {f : Value} (hw : w.DepthIs d L) :
    KeepsDepth d L (construct (n + 1) f args) w := by
  simp only [construct]
  refine keeps_get_bind ?_
  split
  · rename_i fid
    split
    · exact keeps_throw_bind hw
    · -- the new object's prototype is looked up and allocated without a call
      have htail : ∀ p w', w'.DepthIs d L →
          KeepsDepth d L (pure p >>= fun proto => make (World.allocPlain (some proto)) >>= fun inst =>
            discard (callWith n (.obj fid) (.obj inst) args) >>= fun _ => pure (Value.obj inst)) w' := by
        intro p w' hw'
        refine keeps_pure_bind (keeps_modifyGet_bind ⟨hw', Nat.le_refl 0⟩ ?_)
        refine keeps_bind (keeps_map (R := fun _ _ => True) (ih.callWith d L _ _ _ _ hw')
          fun _ _ _ _ => trivial) fun _ w'' hg _ => ?_
        exact keeps_pure hg.1 trivial
      refine keeps_bind ((steady_lift rfl).keepsDepth hw) fun v w' hg _ => ?_
      split
      · exact htail _ w' hg.1
      · exact htail _ w' hg.1
  · exact keeps_throw hw

theorem evalIn_depth_succ (ih : MachineDepth n) {src : String} {s : ScopeId}
    (hw : w.DepthIs d L) : KeepsDepth d L (evalIn (n + 1) src s this) w := by
  simp only [evalIn]
  refine keeps_bind ((steady_lift rfl).keepsDepth hw) fun code w' hg _ => ?_
  exact keeps_get_bind (ih.invoke d L _ _ _ _ _ w' hg.1)

theorem native_depth_succ (ih : MachineDepth n) {k : Native} (hw : w.DepthIs d L) :
    KeepsDepth d L (native (n + 1) k this args) w := by
  cases hk : k.runsCode
  · exact (native_steady rfl hk).keepsDepth hw
  · cases k <;> simp only [Native.runsCode, Bool.false_eq_true] at hk
    case eval =>
      unfold native
      dsimp only
      split
      · exact keeps_get_bind (ih.evalIn d L _ _ _ w hw)
      · exact keeps_pure hw trivial
      · exact keeps_pure hw trivial
    case call =>
      unfold native
      dsimp only
      split
      · exact ih.callWith d L _ _ _ w hw
      · exact ih.callWith d L _ _ _ w hw

/-- Every runner of the machine, at every fuel, ends with the count of calls it started with,
under the same limits. -/
theorem machine_depth (n : Nat) : MachineDepth n := by
  induction n with
  | zero => exact machineDepth_zero
  | succ n ih =>
    exact {
      exec := fun _ _ _ _ hw => exec_depth_succ ih hw
      step := fun _ _ fr i _ hw =>
        step_depth (ih.callWith _ _) (ih.construct _ _) hw fr i
      callWith := fun _ _ _ _ _ _ hw => callWith_depth_succ ih hw
      callObject := fun _ _ _ _ _ _ hw => callObject_depth_succ ih hw
      invoke := fun _ _ _ _ _ _ _ _ hw => invoke_depth_succ ih hw
      construct := fun _ _ _ _ _ hw => construct_depth_succ ih hw
      evalIn := fun _ _ _ _ _ _ hw => evalIn_depth_succ ih hw
      native := fun _ _ _ _ _ _ hw => native_depth_succ ih hw }

end Run

namespace Session

/-- The world of `s` runs `d` calls under limits `L`. -/
def DepthIs (d : Nat) (L : Limits) (s : Session) : Prop := s.world.DepthIs d L

/-- Running `x` from `s` ends, with a reply or with a refusal, with `d` calls running in its
world, under limits `L`. -/
abbrev KeepsDepth {α : Type} (d : Nat) (L : Limits) (x : Host α) (s : Session) : Prop :=
  EcmaLite.Keeps (Session.DepthIs d L) (fun _ => 0) x s fun _ _ => True

variable {α : Type} {d : Nat} {L : Limits} {s : Session} {e : Env}

/-- Machine code run on the session's world keeps the count there. -/
theorem machine_keepsDepth {r : Run α} (hr : Run.KeepsDepth d L r s.world) :
    KeepsDepth d L (machine r) s := by
  show Ends _ (fun _ => 0) s _ (machine r s)
  have hr : Ends (World.DepthIs d L) (fun _ => 0) s.world (fun _ _ => True) (r s.world) := hr
  unfold machine
  cases hres : r s.world with
  | ok a w =>
    rw [hres] at hr
    exact ⟨⟨hr.1.1, Nat.le_refl 0⟩, trivial⟩
  | error f w =>
    rw [hres] at hr
    exact ⟨hr.1, Nat.le_refl 0⟩

/-- Entering an environment leaves the count as it is. -/
theorem enter_keepsDepth (hs : s.DepthIs d L) {sc : ScopeId} :
    KeepsDepth d L (enter e sc) s :=
  keeps_modify ⟨hs, Nat.le_refl 0⟩

theorem frame_addEnv : s.addEnv.world.frame = s.world.frame := by
  unfold Session.addEnv
  simp only [World.frame_newScope, World.frame_allocGlobal]

theorem DepthIs.addEnvs (hs : s.DepthIs d L) (k : Nat) : (s.addEnvs k).DepthIs d L := by
  induction k with
  | zero => exact hs
  | succ k ih =>
    rw [Session.addEnvs]
    exact World.DepthIs.of_frame (s.addEnvs k).frame_addEnv ih

theorem env_keepsDepth (hs : s.DepthIs d L) {k : Nat} : KeepsDepth d L (env k) s := by
  unfold env
  have hadd := hs.addEnvs (k + 1 - s.envs.size)
  exact keeps_modify_bind ⟨hadd, Nat.le_refl 0⟩ (keeps_get_bind (keeps_pure hadd trivial))

theorem evalIn_keepsDepth (hs : s.DepthIs d L) {src : String} {sc : ScopeId} :
    KeepsDepth d L (evalIn e src sc) s := by
  unfold Session.evalIn
  refine keeps_bind (enter_keepsDepth hs) fun _ s' hg _ => ?_
  exact machine_keepsDepth ((Run.machine_depth fuel).evalIn d L _ _ _ _ hg.1)

theorem lookup_keepsDepth (hs : s.DepthIs d L) {name : String} :
    KeepsDepth d L (lookup e name) s := by
  unfold lookup
  refine keeps_get_bind ?_
  dsimp only
  split
  · exact keeps_pure hs trivial
  · exact machine_keepsDepth ((Run.steady_lift rfl).keepsDepth hs)

theorem scopeNamed_keepsDepth (hs : s.DepthIs d L) {name : String} :
    KeepsDepth d L (scopeNamed e name) s := by
  unfold scopeNamed
  split
  · exact keeps_pure hs trivial
  · refine keeps_get_bind ?_
    split
    · exact keeps_pure hs trivial
    · exact keeps_throw hs

theorem value_keepsDepth (hs : s.DepthIs d L) : ∀ v : Spec, KeepsDepth d L (value e v) s
  | .lookup _ => lookup_keepsDepth hs
  | .eval _ => evalIn_keepsDepth hs
  | .undefined | .null | .bool _ | .str _ | .numeral .. | .num _ => keeps_pure hs trivial

theorem values_keepsDepth (hs : s.DepthIs d L) (vs : List Spec) :
    KeepsDepth d L (values e vs) s := by
  induction vs generalizing s with
  | nil => exact keeps_pure hs trivial
  | cons v vs ih =>
    refine keeps_bind (value_keepsDepth hs v) fun a s1 hg1 _ => ?_
    exact keeps_bind (ih hg1.1) fun as s2 hg2 _ => keeps_pure hg2.1 trivial

theorem runLast_keepsDepth (hs : s.DepthIs d L) : KeepsDepth d L (runLast e) s := by
  unfold runLast
  split
  · exact keeps_throw hs
  · refine keeps_bind (machine_keepsDepth ((Run.steady_make rfl World.frame_newScope).keepsDepth
      hs)) fun sc s1 hg1 _ => ?_
    refine keeps_bind (enter_keepsDepth hg1.1) fun _ s2 hg2 _ => ?_
    exact machine_keepsDepth ((Run.machine_depth fuel).invoke d L _ _ _ _ _ _ hg2.1)

theorem shown_keepsDepth (hs : s.DepthIs d L) {v : Value} : KeepsDepth d L (shown v) s :=
  keeps_get_bind (keeps_pure hs trivial)

/-- Every operation leaves the count as it found it, whether it answers or fails. -/
theorem perform_keepsDepth (hs : s.DepthIs d L) (k : Nat) (op : Op) :
    KeepsDepth d L (perform k op) s := by
  cases op with
  | eval src =>
    dsimp only [perform]
    refine keeps_bind (env_keepsDepth hs) fun e s1 hg1 _ => ?_
    exact keeps_bind (evalIn_keepsDepth hg1.1) fun _ s2 hg2 _ => shown_keepsDepth hg2.1
  | evalIn src scope =>
    dsimp only [perform]
    refine keeps_bind (env_keepsDepth hs) fun e s1 hg1 _ => ?_
    refine keeps_bind (scopeNamed_keepsDepth hg1.1) fun sc s2 hg2 _ => ?_
    exact keeps_bind (evalIn_keepsDepth hg2.1) fun _ s3 hg3 _ => shown_keepsDepth hg3.1
  | newScope name parent =>
    dsimp only [perform]
    refine keeps_bind (env_keepsDepth hs) fun e s1 hg1 _ => ?_
    -- the three ways to name the outer scope share what follows
    have htail : ∀ (outer : Option ScopeId) (s' : Session), s'.DepthIs d L →
        KeepsDepth d L (do
          let sc ← machine (Run.make (World.newScope outer))
          modify fun s : Session => { s with named := (name, sc) :: s.named }
          pure Reply.ok) s' := by
      intro outer s' h'
      refine keeps_bind (machine_keepsDepth ((Run.steady_make rfl World.frame_newScope).keepsDepth
        h')) fun sc s3 hg3 _ => ?_
      have h4 : Session.DepthIs d L { s3 with named := (name, sc) :: s3.named } := hg3.1
      exact keeps_modify_bind ⟨h4, Nat.le_refl 0⟩ (keeps_pure h4 trivial)
    split
    · exact keeps_throw_bind hg1.1
    · split
      · exact keeps_pure_bind (htail _ _ hg1.1)
      · exact keeps_pure_bind (htail _ _ hg1.1)
      · refine keeps_bind (keeps_map (R := fun _ _ => True) (scopeNamed_keepsDepth hg1.1)
          fun _ _ _ _ => trivial) fun outer s2 hg2 _ => htail outer s2 hg2.1
  | bind scope name v =>
    dsimp only [perform]
    refine keeps_bind (env_keepsDepth hs) fun e s1 hg1 _ => ?_
    refine keeps_bind (scopeNamed_keepsDepth hg1.1) fun sc s2 hg2 _ => ?_
    refine keeps_bind (value_keepsDepth hg2.1 v) fun a s3 hg3 _ => ?_
    refine keeps_bind (machine_keepsDepth ((Run.steady_modify rfl World.frame_bind).keepsDepth
      hg3.1)) fun _ s4 hg4 _ => ?_
    exact keeps_pure hg4.1 trivial
  | resolve scope name =>
    dsimp only [perform]
    refine keeps_bind (env_keepsDepth hs) fun e s1 hg1 _ => ?_
    refine keeps_bind (scopeNamed_keepsDepth hg1.1) fun sc s2 hg2 _ => ?_
    refine keeps_get_bind ?_
    split
    · exact shown_keepsDepth hg2.1
    · exact keeps_pure hg2.1 trivial
  | evaluate src =>
    dsimp only [perform]
    refine keeps_bind (env_keepsDepth hs) fun _ s1 hg1 _ => ?_
    refine keeps_bind (machine_keepsDepth ((Run.steady_lift rfl).keepsDepth hg1.1))
      fun code s2 hg2 _ => ?_
    -- the slot and the handle change; the world does not
    have h3 : Session.DepthIs d L { s2 with
        envs := s2.envs.modify k fun e => { e with script := some code }
        handles := s2.handles.push k } := hg2.1
    exact keeps_get_bind (keeps_set_bind ⟨h3, Nat.le_refl 0⟩ (keeps_pure h3 trivial))
  | invoke h target =>
    dsimp only [perform]
    refine keeps_get_bind ?_
    split
    · exact keeps_throw hs
    · refine keeps_bind (env_keepsDepth hs) fun e s1 hg1 _ => ?_
      split
      · exact keeps_throw_bind hg1.1
      · exact keeps_bind (runLast_keepsDepth hg1.1) fun _ s2 hg2 _ => shown_keepsDepth hg2.1
  | runLast =>
    dsimp only [perform]
    refine keeps_bind (env_keepsDepth hs) fun e s1 hg1 _ => ?_
    exact keeps_bind (runLast_keepsDepth hg1.1) fun _ s2 hg2 _ => shown_keepsDepth hg2.1
  | lookup name =>
    dsimp only [perform]
    refine keeps_bind (env_keepsDepth hs) fun e s1 hg1 _ => ?_
    exact keeps_bind (lookup_keepsDepth hg1.1) fun _ s2 hg2 _ => shown_keepsDepth hg2.1
  | call fn this args =>
    dsimp only [perform]
    refine keeps_bind (env_keepsDepth hs) fun e s1 hg1 _ => ?_
    refine keeps_bind (value_keepsDepth hg1.1 fn) fun f s2 hg2 _ => ?_
    refine keeps_bind (value_keepsDepth hg2.1 this) fun r s3 hg3 _ => ?_
    refine keeps_bind (values_keepsDepth hg3.1 args) fun as s4 hg4 _ => ?_
    refine keeps_bind (enter_keepsDepth hg4.1) fun _ s5 hg5 _ => ?_
    refine keeps_bind (machine_keepsDepth ((Run.machine_depth fuel).callWith d L _ _ _ _ hg5.1))
      fun v s6 hg6 _ => ?_
    exact shown_keepsDepth hg6.1
  | setPrototype object proto =>
    dsimp only [perform]
    refine keeps_bind (env_keepsDepth hs) fun e s1 hg1 _ => ?_
    refine keeps_bind (value_keepsDepth hg1.1 object) fun x s2 hg2 _ => ?_
    cases x with
    | undefined | null | bool _ | str _ | num _ => exact keeps_throw hg2.1
    | obj id =>
      refine keeps_bind (value_keepsDepth hg2.1 proto) fun y s3 hg3 _ => ?_
      -- an object and `null` both reach the same relink, which changes only objects
      have htail : ∀ (p : Option ObjId) (s' : Session), s'.DepthIs d L →
          KeepsDepth d L (machine (World.setProto id p) >>= fun b => shown (.bool b)) s' := by
        intro p s' h'
        exact keeps_bind (machine_keepsDepth ((Run.setProto_steady rfl).keepsDepth h'))
          fun _ s4 hg4 _ => shown_keepsDepth hg4.1
      cases y with
      | obj pid => exact keeps_pure_bind (htail _ _ hg3.1)
      | null => exact keeps_pure_bind (htail _ _ hg3.1)
      | undefined | bool _ | str _ | num _ => exact keeps_throw_bind hg3.1
  | parse src =>
    dsimp only [perform]
    split
    · exact keeps_pure hs trivial
    · exact keeps_pure hs trivial

/-- Answering a request leaves the count as it found it, however the request ends. -/
theorem DepthIs.answer (hs : s.DepthIs d L) (req : Request) : (s.answer req).2.DepthIs d L := by
  unfold Session.answer
  dsimp only
  -- the printed text is reset before the request runs, which the count does not see
  set s0 : Session := { s with world := { s.world with printed := #[] } }
  have h0 : s0.DepthIs d L := hs
  have hp : Ends (Session.DepthIs d L) (fun _ => 0) s0 (fun _ _ => True)
      (perform req.env req.op s0) := perform_keepsDepth h0 req.env req.op
  split
  · next r s' hr =>
    rw [hr] at hp
    exact hp.1.1
  · next r s' hr =>
    rw [hr] at hp
    exact hp.1

/-- No call runs in a session a host reaches. -/
theorem Reachable.depth (h : s.Reachable) : s.world.ctx.depth = 0 := by
  have hL : ∃ L, s.DepthIs 0 L := by
    induction h with
    | start limits => exact ⟨limits, rfl, rfl⟩
    | answer req _ ih =>
      obtain ⟨L, hL⟩ := ih
      exact ⟨L, hL.answer req⟩
  obtain ⟨L, hL⟩ := hL
  exact hL.1

end Session

/-- Calls are counted exactly while they run. A call ends, with a value or with a fault, with
the count and the limits it started with, so no call runs in a session a host reaches. A call
of a function below the limit runs it with one more call counted and hands back its world with
the count it started with; at the limit it stops at once with the fault naming the limit, at
every fuel, which no call below the limit does. -/
theorem call_depth_balanced :
    (∀ n f this args (w : World),
      (Run.final (callWith n f this args w)).DepthIs w.ctx.depth w.limits) ∧
    (∀ s : Session, s.Reachable → s.world.ctx.depth = 0) ∧
    (∀ n id this args (w : World), (w.obj id).isCallable = true →
      w.ctx.depth < w.limits.maxCallDepth →
      callWith (n + 1) (.obj id) this args w =
        Run.mapFinal (·.withDepth w.ctx.depth)
          (callObject n id this args (w.withDepth (w.ctx.depth + 1)))) ∧
    (∀ id this args (w : World), (w.obj id).isCallable = true →
      w.ctx.depth ≤ w.limits.maxCallDepth →
      ((∀ n, callWith (n + 1) (.obj id) this args w =
          .error (.callDepth w.limits.maxCallDepth) w) ↔
        w.ctx.depth = w.limits.maxCallDepth)) := by
  refine ⟨fun n f this args w => ((Run.machine_depth n).callWith _ _ f this args w ⟨rfl, rfl⟩).final,
    fun s hs => hs.depth, fun n id this args w hc hd => ?_, fun id this args w hc hle => ?_⟩
  · -- the callee ends with the one more call it started with
    have hend := ((Run.machine_depth n).callObject (w.ctx.depth + 1) w.limits id this args
      (w.withDepth (w.ctx.depth + 1)) ⟨rfl, rfl⟩).final
    rw [Run.callWith_counted hc hd]
    exact Run.mapFinal_uncount hend.1
  · refine ⟨fun h => ?_, fun h n => Run.callWith_at_limit hc h.ge⟩
    -- with no fuel to run the function, a call below the limit ends out of fuel instead
    refine Nat.le_antisymm hle (Nat.not_lt.mp fun hlt => ?_)
    have h0 := h 0
    rw [Run.callWith_counted hc hlt] at h0
    simp only [callObject, Run.mapFinal] at h0
    cases h0

/-- In a fresh world, a call of the built-in `toString` (object 6) starts below the limit and runs
one call deeper, coming back at depth 0. -/
theorem toString_call_runs_one_deeper :
    ((World.start Limits.standard).obj 6).isCallable = true ∧
    (World.start Limits.standard).ctx.depth < (World.start Limits.standard).limits.maxCallDepth ∧
    callWith 1 (.obj 6) .undefined [] (World.start Limits.standard) =
      Run.mapFinal (·.withDepth 0)
        (callObject 0 6 .undefined [] ((World.start Limits.standard).withDepth 1)) := by
  have hc : ((World.start Limits.standard).obj 6).isCallable = true := by decide
  have hd : (World.start Limits.standard).ctx.depth <
      (World.start Limits.standard).limits.maxCallDepth := by decide
  exact ⟨hc, hd, call_depth_balanced.2.2.1 0 6 .undefined [] _ hc hd⟩

end EcmaLite
