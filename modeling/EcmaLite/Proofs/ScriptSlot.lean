import Mathlib
import EcmaLite.Proofs.SessionSealed

/-!
# The script slot of an environment

`evaluate` compiles source text into the one script slot of its environment and hands out a
handle that names nothing but that environment. `run_last`, and every handle the environment
issued, run whatever the slot holds when they are used. This module follows the slot along any
sequence of requests.

* The slot of environment `k` holds what the latest `evaluate` on `k` that compiled made, and
  handle `h` names the environment of the `h`-th `evaluate` that compiled (`after_slot`,
  `after_handles`).
* A handle used without naming an environment does exactly what `run_last` does in the
  environment that issued it (`invoke_own`), and `run_last` runs the slot in a new scope with no
  outer scope and the global object as receiver, where no name is bound yet (`runLast_fresh`).
* A handle used with another environment, an `evaluate` that does not compile and a `run_last`
  on an empty slot fail, and change nothing but making the environment the request names when it
  was not made yet (`invoke_foreign`, `evaluate_error`, `runLast_empty`).

What carries the first point is that slots and handles lie outside everything code can reach:
every request other than `evaluate` keeps them, whatever code it runs and however it ends
(`perform_keeps_host`).
-/

namespace EcmaLite

namespace Session

/-- What the script slot of environment `k` holds; nothing for an environment not made yet. -/
def slot (s : Session) (k : Nat) : Option Code := s.envs[k]?.bind (·.script)

/-- The session after answering the requests `reqs` in order. -/
def after (s : Session) (reqs : List Request) : Session :=
  reqs.foldl (fun s r => (s.answer r).2) s

/-- The session a request ends in, with a reply or with a failure. -/
def final {α : Type} : EStateM.Result Reply Session α → Session
  | .ok _ s => s
  | .error _ s => s

/-- The session with the new scope that `run_last` of environment `e` makes, entered with the
global object of `e` as receiver. -/
def freshScope (s : Session) (e : Env) : Session :=
  { s with world := { (s.world.newScope none).2 with
      ctx := ⟨e.global, s.world.ctx.depth, s.world.scopes.size, .obj e.global⟩ } }

end Session

/-- The script an operation puts in the slot of its environment: the code of an `evaluate`
whose source compiles. -/
def Op.compiled : Op → Option Code
  | .evaluate src => (Run.compileSource src).toOption
  | _ => none

/-- The script of the latest request in `reqs` that compiled one for environment `k`. -/
def latestScript (k : Nat) (reqs : List Request) : Option Code :=
  reqs.reverse.findSome? fun r => if r.env = k then r.op.compiled else none

/-- The environments of the requests in `reqs` that compiled a script, in order. -/
def issuers (reqs : List Request) : List Nat :=
  reqs.filterMap fun r => r.op.compiled.map fun _ => r.env

theorem latestScript_eq_none {k : Nat} {reqs : List Request}
    (h : ∀ r ∈ reqs, r.env = k → r.op.compiled = none) : latestScript k reqs = none := by
  unfold latestScript
  rw [List.findSome?_eq_none_iff]
  intro r hr
  split
  · next hk => exact h r (List.mem_reverse.mp hr) hk
  · rfl

theorem latestScript_append (k : Nat) (reqs : List Request) (r : Request) :
    latestScript k (reqs ++ [r]) =
      (if r.env = k then r.op.compiled else none).or (latestScript k reqs) := by
  unfold latestScript
  rw [List.reverse_append, List.reverse_singleton, List.singleton_append, List.findSome?_cons]
  cases (if r.env = k then r.op.compiled else none) <;> rfl

namespace Session

/-! ## Slots of new environments -/

variable {s : Session}

theorem slot_addEnv (k : Nat) : s.addEnv.slot k = s.slot k := by
  unfold slot addEnv
  dsimp only
  rw [Array.getElem?_push]
  split
  · -- the new environment's slot is empty, as the missing one's was
    next h =>
    subst h
    rw [Array.getElem?_eq_none (Nat.le_refl _)]
    rfl
  · rfl

theorem slot_addEnvs (n k : Nat) : (s.addEnvs n).slot k = s.slot k := by
  induction n with
  | zero => rfl
  | succ n ih => rw [addEnvs, slot_addEnv, ih]

theorem handles_addEnv : s.addEnv.handles = s.handles := by
  simp only [addEnv]

theorem handles_addEnvs (n : Nat) : (s.addEnvs n).handles = s.handles := by
  induction n with
  | zero => rfl
  | succ n ih => rw [addEnvs, handles_addEnv, ih]

/-- Environment `k` once `env k` has made it: its slot is the session's slot `k`. -/
theorem script_env (k : Nat) :
    ((s.addEnvs (k + 1 - s.envs.size)).envs[k]?.getD ⟨0, 0, none⟩).script = s.slot k := by
  have hk : k < (s.addEnvs (k + 1 - s.envs.size)).envs.size := by
    rw [size_addEnvs]
    omega
  rw [← slot_addEnvs (k + 1 - s.envs.size) k, slot, Array.getElem?_eq_getElem hk]
  rfl

theorem env_apply (k : Nat) :
    env k s = .ok ((s.addEnvs (k + 1 - s.envs.size)).envs[k]?.getD ⟨0, 0, none⟩)
      (s.addEnvs (k + 1 - s.envs.size)) := by
  simp only [env, bind, EStateM.bind, modify, modifyGet, MonadStateOf.modifyGet,
    EStateM.modifyGet, get, getThe, MonadStateOf.get, EStateM.get, pure, EStateM.pure]

/-! ## What requests other than `evaluate` keep -/

/-- A property of the parts of a session that code cannot reach: changing the world, naming a
scope and making an environment all keep it. -/
structure HostInvariant (I : Session → Prop) : Prop where
  world : ∀ s w, I s → I { s with world := w }
  named : ∀ s l, I s → I { s with named := l }
  addEnv : ∀ s, I s → I s.addEnv

/-- Running `x` from `s` keeps `I`, however it ends. -/
abbrev KeepsHost {α : Type} (I : Session → Prop) (x : Host α) (s : Session) : Prop :=
  EcmaLite.Keeps I (fun _ => 0) x s fun _ _ => True

section HostInvariant

variable {I : Session → Prop} (hI : HostInvariant I) {α : Type} {e : Env}
include hI

theorem HostInvariant.grows_world (hs : I s) (w : World) :
    EcmaLite.Grows I (fun _ => 0) s { s with world := w } :=
  ⟨hI.world s w hs, Nat.le_refl 0⟩

theorem machine_keeps_host (hs : I s) (r : Run α) : KeepsHost I (machine r) s := by
  show Ends I (fun _ => 0) s _ (machine r s)
  unfold machine
  cases r s.world with
  | ok a w => exact ⟨hI.grows_world hs w, trivial⟩
  | error f w => exact hI.grows_world hs w

theorem env_keeps_host (hs : I s) (k : Nat) : KeepsHost I (env k) s := by
  have hadd : ∀ n, I (s.addEnvs n) := by
    intro n
    induction n with
    | zero => exact hs
    | succ n ih => exact hI.addEnv _ ih
  show Ends I (fun _ => 0) s _ (env k s)
  rw [env_apply]
  exact ⟨⟨hadd _, Nat.le_refl 0⟩, trivial⟩

theorem enter_keeps_host (hs : I s) (sc : ScopeId) : KeepsHost I (enter e sc) s :=
  keeps_modify (hI.grows_world hs _)

omit hI in
theorem shown_keeps_host (hs : I s) (v : Value) : KeepsHost I (shown v) s :=
  keeps_get_bind (keeps_pure hs trivial)

theorem evalIn_keeps_host (hs : I s) (src : String) (sc : ScopeId) :
    KeepsHost I (evalIn e src sc) s :=
  keeps_bind (enter_keeps_host hI hs sc) fun _ _ hg _ => machine_keeps_host hI hg.1 _

theorem lookup_keeps_host (hs : I s) (name : String) : KeepsHost I (lookup e name) s := by
  unfold lookup
  refine keeps_get_bind ?_
  dsimp only
  split
  · exact keeps_pure hs trivial
  · exact machine_keeps_host hI hs _

omit hI in
theorem scopeNamed_keeps_host (hs : I s) (name : String) :
    KeepsHost I (scopeNamed e name) s := by
  unfold scopeNamed
  split
  · exact keeps_pure hs trivial
  · refine keeps_get_bind ?_
    split
    · exact keeps_pure hs trivial
    · exact keeps_throw hs

theorem value_keeps_host (hs : I s) : ∀ v : Spec, KeepsHost I (value e v) s
  | .lookup _ => lookup_keeps_host hI hs _
  | .eval _ => evalIn_keeps_host hI hs _ _
  | .undefined | .null | .bool _ | .str _ | .numeral .. | .num _ => keeps_pure hs trivial

theorem values_keeps_host (hs : I s) (vs : List Spec) : KeepsHost I (values e vs) s := by
  induction vs generalizing s with
  | nil => exact keeps_pure hs trivial
  | cons v vs ih =>
    refine keeps_bind (value_keeps_host hI hs v) fun a s1 hg1 _ => ?_
    exact keeps_bind (ih hg1.1) fun _ s2 hg2 _ => keeps_pure hg2.1 trivial

theorem runLast_keeps_host (hs : I s) : KeepsHost I (runLast e) s := by
  unfold runLast
  split
  · exact keeps_throw hs
  · refine keeps_bind (machine_keeps_host hI hs _) fun sc s1 hg1 _ => ?_
    refine keeps_bind (enter_keeps_host hI hg1.1 sc) fun _ s2 hg2 _ => ?_
    exact machine_keeps_host hI hg2.1 _

/-- Every request other than `evaluate` keeps what code cannot reach, whatever code it runs and
however it ends. -/
theorem perform_keeps_host (hs : I s) (k : Nat) (op : Op) (hop : ∀ src, op ≠ .evaluate src) :
    KeepsHost I (perform k op) s := by
  cases op with
  | eval src =>
    dsimp only [perform]
    refine keeps_bind (env_keeps_host hI hs k) fun e s1 hg1 _ => ?_
    exact keeps_bind (evalIn_keeps_host hI hg1.1 _ _) fun v s2 hg2 _ => shown_keeps_host hg2.1 v
  | evalIn src scope =>
    dsimp only [perform]
    refine keeps_bind (env_keeps_host hI hs k) fun e s1 hg1 _ => ?_
    refine keeps_bind (scopeNamed_keeps_host hg1.1 scope) fun sc s2 hg2 _ => ?_
    exact keeps_bind (evalIn_keeps_host hI hg2.1 _ _) fun v s3 hg3 _ => shown_keeps_host hg3.1 v
  | newScope name parent =>
    dsimp only [perform]
    refine keeps_bind (env_keeps_host hI hs k) fun e s1 hg1 _ => ?_
    -- the three ways to name the outer scope share what follows
    have htail : ∀ (outer : Option ScopeId) (s' : Session), I s' →
        KeepsHost I (do
          let sc ← machine (Run.make (World.newScope outer))
          modify fun s : Session => { s with named := (name, sc) :: s.named }
          pure Reply.ok) s' := by
      intro outer s' h'
      refine keeps_bind (machine_keeps_host hI h' _) fun sc s3 hg3 _ => ?_
      have h4 := hI.named s3 ((name, sc) :: s3.named) hg3.1
      exact keeps_modify_bind ⟨h4, Nat.le_refl 0⟩ (keeps_pure h4 trivial)
    split
    · exact keeps_throw_bind hg1.1
    · split
      · exact keeps_pure_bind (htail _ _ hg1.1)
      · exact keeps_pure_bind (htail _ _ hg1.1)
      · exact keeps_bind (keeps_map (R := fun _ _ => True) (scopeNamed_keeps_host hg1.1 _)
          fun _ _ _ _ => trivial) fun outer s2 hg2 _ => htail outer s2 hg2.1
  | bind scope name v =>
    dsimp only [perform]
    refine keeps_bind (env_keeps_host hI hs k) fun e s1 hg1 _ => ?_
    refine keeps_bind (scopeNamed_keeps_host hg1.1 scope) fun sc s2 hg2 _ => ?_
    refine keeps_bind (value_keeps_host hI hg2.1 v) fun a s3 hg3 _ => ?_
    exact keeps_bind (machine_keeps_host hI hg3.1 _) fun _ s4 hg4 _ => keeps_pure hg4.1 trivial
  | resolve scope name =>
    dsimp only [perform]
    refine keeps_bind (env_keeps_host hI hs k) fun e s1 hg1 _ => ?_
    refine keeps_bind (scopeNamed_keeps_host hg1.1 scope) fun sc s2 hg2 _ => ?_
    refine keeps_get_bind ?_
    split
    · exact shown_keeps_host hg2.1 _
    · exact keeps_pure hg2.1 trivial
  | evaluate src => exact absurd rfl (hop src)
  | invoke h target =>
    dsimp only [perform]
    refine keeps_get_bind ?_
    split
    · exact keeps_throw hs
    · refine keeps_bind (env_keeps_host hI hs _) fun e s1 hg1 _ => ?_
      split
      · exact keeps_throw_bind hg1.1
      · exact keeps_bind (runLast_keeps_host hI hg1.1) fun v s2 hg2 _ => shown_keeps_host hg2.1 v
  | runLast =>
    dsimp only [perform]
    refine keeps_bind (env_keeps_host hI hs k) fun e s1 hg1 _ => ?_
    exact keeps_bind (runLast_keeps_host hI hg1.1) fun v s2 hg2 _ => shown_keeps_host hg2.1 v
  | lookup name =>
    dsimp only [perform]
    refine keeps_bind (env_keeps_host hI hs k) fun e s1 hg1 _ => ?_
    exact keeps_bind (lookup_keeps_host hI hg1.1 name) fun v s2 hg2 _ => shown_keeps_host hg2.1 v
  | call fn this args =>
    dsimp only [perform]
    refine keeps_bind (env_keeps_host hI hs k) fun e s1 hg1 _ => ?_
    refine keeps_bind (value_keeps_host hI hg1.1 fn) fun f s2 hg2 _ => ?_
    refine keeps_bind (value_keeps_host hI hg2.1 this) fun r s3 hg3 _ => ?_
    refine keeps_bind (values_keeps_host hI hg3.1 args) fun as s4 hg4 _ => ?_
    refine keeps_bind (enter_keeps_host hI hg4.1 _) fun _ s5 hg5 _ => ?_
    exact keeps_bind (machine_keeps_host hI hg5.1 _) fun v s6 hg6 _ => shown_keeps_host hg6.1 v
  | setPrototype object proto =>
    dsimp only [perform]
    refine keeps_bind (env_keeps_host hI hs k) fun e s1 hg1 _ => ?_
    refine keeps_bind (value_keeps_host hI hg1.1 object) fun x s2 hg2 _ => ?_
    cases x with
    | undefined | null | bool _ | str _ | num _ => exact keeps_throw hg2.1
    | obj id =>
      have htail : ∀ (p : Option ObjId) (s' : Session), I s' →
          KeepsHost I (machine (World.setProto id p) >>= fun b => shown (.bool b)) s' :=
        fun p s' h' => keeps_bind (machine_keeps_host hI h' _) fun b s4 hg4 _ =>
          shown_keeps_host hg4.1 (.bool b)
      refine keeps_bind (value_keeps_host hI hg2.1 proto) fun y s3 hg3 _ => ?_
      cases y with
      | obj pid => exact keeps_pure_bind (htail _ _ hg3.1)
      | null => exact keeps_pure_bind (htail _ _ hg3.1)
      | undefined | bool _ | str _ | num _ => exact keeps_throw_bind hg3.1
  | parse src =>
    dsimp only [perform]
    split
    · exact keeps_pure hs trivial
    · exact keeps_pure hs trivial

end HostInvariant

/-- Where a run that keeps `I` ends, `I` holds. -/
theorem KeepsHost.final {I : Session → Prop} {x : Host α} (h : KeepsHost I x s) :
    I (final (x s)) := by
  have h' : Ends I (fun _ => 0) s (fun _ _ => True) (x s) := h
  revert h'
  cases x s with
  | ok a s' => exact fun h' => h'.1.1
  | error f s' => exact fun h' => h'.1

/-! ## Slots and handles along requests -/

/-- The slots of a session are `σ` and its handles `H`. -/
structure SlotsAre (σ : Nat → Option Code) (H : Array Nat) (s : Session) : Prop where
  slots : ∀ k, s.slot k = σ k
  handles : s.handles = H

theorem slotsAre_host (σ : Nat → Option Code) (H : Array Nat) :
    HostInvariant (SlotsAre σ H) where
  world _ _ h := ⟨h.slots, h.handles⟩
  named _ _ h := ⟨h.slots, h.handles⟩
  addEnv _ h := ⟨fun k => (slot_addEnv k).trans (h.slots k), handles_addEnv.trans h.handles⟩

/-- The session with `code` in the slot of environment `k` and a new handle naming `k`. -/
def install (s : Session) (k : Nat) (code : Code) : Session :=
  { s with
    envs := s.envs.modify k fun e => { e with script := some code }
    handles := s.handles.push k }

theorem slot_install {k : Nat} (hk : k < s.envs.size) (code : Code) (j : Nat) :
    (s.install k code).slot j = if k = j then some code else s.slot j := by
  unfold install slot
  by_cases h : k = j
  · subst h
    simp [Array.getElem?_modify, Array.getElem?_eq_getElem hk]
  · simp [Array.getElem?_modify, h]

/-- `evaluate` makes its environment and compiles; on success it fills the slot and issues the
next handle, on failure the fault is the reply. -/
theorem perform_evaluate (s : Session) (k : Nat) (src : String) :
    perform k (.evaluate src) s =
      match Run.compileSource src with
      | .error f => .error (.fault f) (s.addEnvs (k + 1 - s.envs.size))
      | .ok code => .ok (.handle (s.addEnvs (k + 1 - s.envs.size)).handles.size)
          ((s.addEnvs (k + 1 - s.envs.size)).install k code) := by
  simp only [perform, bind, EStateM.bind, env_apply, machine]
  cases Run.compileSource src <;> rfl

/-- The session a request runs on: the printed text cleared. -/
def cleared (s : Session) : Session := { s with world := { s.world with printed := #[] } }

theorem answer_state (s : Session) (r : Request) :
    (s.answer r).2 = final (perform r.env r.op s.cleared) := by
  simp only [answer, cleared]
  split <;> next _ _ h => rw [h]; rfl

/-- A request that is no `evaluate` compiles nothing. -/
theorem compiled_eq_none {op : Op} (hop : ∀ src, op ≠ .evaluate src) : op.compiled = none := by
  cases op <;> first | rfl | exact absurd rfl (hop _)

/-- What an answer leaves in slot `k`: the script a request on `k` compiled, else what was
there. -/
theorem answer_slot (s : Session) (r : Request) (k : Nat) :
    (s.answer r).2.slot k = (if r.env = k then r.op.compiled else none).or (s.slot k) := by
  -- the answer first clears the printed text, which no slot holds
  rw [answer_state, ← show (s.cleared).slot k = s.slot k from rfl]
  generalize s.cleared = s0
  obtain ⟨j, op⟩ := r
  by_cases hev : ∃ src, op = .evaluate src
  · obtain ⟨src, rfl⟩ := hev
    have hj : j < (s0.addEnvs (j + 1 - s0.envs.size)).envs.size := by
      rw [size_addEnvs]
      omega
    rw [perform_evaluate]
    cases hc : Run.compileSource src with
    | error f => simp [final, Op.compiled, hc, Except.toOption, slot_addEnvs]
    | ok code =>
      by_cases hjk : j = k
      · subst hjk
        simp [final, Op.compiled, hc, Except.toOption, slot_install hj]
      · simp [final, hjk, slot_install hj, slot_addEnvs]
  · have hop : ∀ src, op ≠ .evaluate src := fun src h => hev ⟨src, h⟩
    simp only [compiled_eq_none hop, ite_self, Option.none_or]
    exact (perform_keeps_host (slotsAre_host s0.slot s0.handles) ⟨fun _ => rfl, rfl⟩ j op
      hop).final.slots k

/-- What an answer does to the handles: a request that compiled a script issues the next one,
naming its environment. -/
theorem answer_handles (s : Session) (r : Request) :
    (s.answer r).2.handles.toList =
      s.handles.toList ++ (r.op.compiled.map fun _ => r.env).toList := by
  rw [answer_state, ← show (s.cleared).handles = s.handles from rfl]
  generalize s.cleared = s0
  obtain ⟨j, op⟩ := r
  by_cases hev : ∃ src, op = .evaluate src
  · obtain ⟨src, rfl⟩ := hev
    rw [perform_evaluate]
    cases hc : Run.compileSource src with
    | error f => simp [final, Op.compiled, hc, Except.toOption, handles_addEnvs]
    | ok code => simp [final, Op.compiled, hc, Except.toOption, install, handles_addEnvs]
  · have hop : ∀ src, op ≠ .evaluate src := fun src h => hev ⟨src, h⟩
    simp only [compiled_eq_none hop, Option.map_none, Option.toList_none, List.append_nil]
    exact congrArg Array.toList (perform_keeps_host (slotsAre_host s0.slot s0.handles)
      ⟨fun _ => rfl, rfl⟩ j op hop).final.handles

theorem after_append (s : Session) (reqs : List Request) (r : Request) :
    s.after (reqs ++ [r]) = ((s.after reqs).answer r).2 := by
  unfold after
  rw [List.foldl_append, List.foldl_cons, List.foldl_nil]

/-- Along any requests from a fresh session, slot `k` holds the script of the latest request
that compiled one for environment `k`. -/
theorem after_slot (L : Limits) (reqs : List Request) (k : Nat) :
    ((Session.start L).after reqs).slot k = latestScript k reqs := by
  induction reqs using List.reverseRecOn with
  | nil =>
    show (Session.start L).slot k = none
    simp [slot, Session.start]
  | append_singleton reqs r ih =>
    rw [after_append, answer_slot, ih, latestScript_append]

/-- Along any requests from a fresh session, handle `h` names the environment of the `h`-th
request that compiled a script. -/
theorem after_handles (L : Limits) (reqs : List Request) :
    ((Session.start L).after reqs).handles.toList = issuers reqs := by
  induction reqs using List.reverseRecOn with
  | nil => rfl
  | append_singleton reqs r ih =>
    rw [after_append, answer_handles, ih, issuers, issuers, List.filterMap_append,
      List.filterMap_cons, List.filterMap_nil]
    cases r.op.compiled <;> rfl

/-! ## Running the slot -/

/-- A handle used without naming an environment does what `run_last` does in the environment
that issued it, whichever handle of that environment it is. -/
theorem invoke_own (s : Session) (k h i : Nat) (hh : s.handles[h]? = some i) :
    perform k (.invoke h none) s = perform i .runLast s := by
  simp only [perform, bind, EStateM.bind, get, getThe, MonadStateOf.get, EStateM.get, hh,
    Option.getD_none, ne_eq, not_true_eq_false, if_false]

/-- `run_last` on a filled slot runs its script in a new scope: no outer scope, no name bound in
it, the global object as receiver. -/
theorem runLast_fresh (s : Session) (e : Env) (code : Code) (hcode : e.script = some code) :
    runLast e s =
      machine (invoke fuel code e.global s.world.scopes.size (.obj e.global) []) (s.freshScope e) ∧
    (s.freshScope e).world.scope s.world.scopes.size = ⟨[], none⟩ ∧
    ∀ name, (s.freshScope e).world.resolve s.world.scopes.size name = none := by
  have hscope : (s.freshScope e).world.scope s.world.scopes.size = ⟨[], none⟩ := by
    simp [freshScope, World.scope, World.newScope]
  refine ⟨?_, hscope, fun name => ?_⟩
  · unfold runLast
    rw [hcode]
    rfl
  · -- the walk outward stops at once: the scope binds nothing and has no outer scope
    unfold World.resolve World.lookupScope
    rw [show (s.freshScope e).world.scopes.size + 1 = s.world.scopes.size + 1 + 1 by
      simp [freshScope, World.newScope]]
    simp [World.bindingScope, hscope, Props.contains]

/-- A handle used with an environment other than the one that issued it fails, and the only
change is making the environment named when it was not made yet. -/
theorem invoke_foreign (s : Session) (k h i t : Nat) (hh : s.handles[h]? = some i)
    (ht : t ≠ i) :
    perform k (.invoke h (some t)) s =
      .error (.fault .foreignHandle) (s.addEnvs (t + 1 - s.envs.size)) := by
  simp only [perform, bind, EStateM.bind, get, getThe, MonadStateOf.get, EStateM.get, hh,
    Option.getD_some, ne_eq, ht, not_false_eq_true, if_true]
  rfl

/-- An `evaluate` that does not compile fails with the compiler's fault, and the only change is
making its environment when it was not made yet. -/
theorem evaluate_error (s : Session) (k : Nat) (src : String) (f : Fault)
    (hf : Run.compileSource src = .error f) :
    perform k (.evaluate src) s = .error (.fault f) (s.addEnvs (k + 1 - s.envs.size)) := by
  rw [perform_evaluate, hf]

/-- `run_last` on an empty slot fails, and the only change is making the environment when it
was not made yet. -/
theorem runLast_empty (s : Session) (k : Nat) (hk : s.slot k = none) :
    perform k .runLast s = .error (.fault .noScript) (s.addEnvs (k + 1 - s.envs.size)) := by
  have he : ((s.addEnvs (k + 1 - s.envs.size)).envs[k]?.getD ⟨0, 0, none⟩).script = none := by
    rw [script_env, hk]
  simp only [perform, bind, EStateM.bind, env_apply]
  unfold runLast
  rw [he]
  rfl

end Session

/-- The script slot of an environment, along any requests a host makes. From a fresh session,
slot `k` holds the script of the latest `evaluate` on `k` that compiled, and handle `h` names the
environment of the `h`-th such `evaluate`. A handle used without naming an environment does what
`run_last` does in the environment that issued it, whichever of its handles it is, and
`run_last` runs the script in the slot in a new scope with no outer scope, where no name is
bound, with the global object as receiver. A handle used with another environment, an
`evaluate` that does not compile, and a `run_last` before any `evaluate` on its environment
compiled fail with the faults below, and change nothing but making the environment the request
names when it was not made yet. -/
theorem script_slot_holds_latest_evaluate :
    (∀ (L : Limits) (reqs : List Request) (k : Nat),
      ((Session.start L).after reqs).slot k = latestScript k reqs ∧
      ((Session.start L).after reqs).handles.toList = issuers reqs) ∧
    (∀ (s : Session) (k h i : Nat), s.handles[h]? = some i →
      Session.perform k (.invoke h none) s = Session.perform i .runLast s) ∧
    (∀ (s : Session) (e : Env) (code : Code), e.script = some code →
      Session.runLast e s = Session.machine
          (invoke Session.fuel code e.global s.world.scopes.size (.obj e.global) [])
          (s.freshScope e) ∧
      (s.freshScope e).world.scope s.world.scopes.size = ⟨[], none⟩ ∧
      ∀ name, (s.freshScope e).world.resolve s.world.scopes.size name = none) ∧
    (∀ (s : Session) (k h i t : Nat), s.handles[h]? = some i → t ≠ i →
      Session.perform k (.invoke h (some t)) s =
        .error (.fault .foreignHandle) (s.addEnvs (t + 1 - s.envs.size))) ∧
    (∀ (s : Session) (k : Nat) (src : String) (f : Fault), Run.compileSource src = .error f →
      Session.perform k (.evaluate src) s =
        .error (.fault f) (s.addEnvs (k + 1 - s.envs.size))) ∧
    (∀ (L : Limits) (reqs : List Request) (k : Nat),
      (∀ r ∈ reqs, r.env = k → r.op.compiled = none) →
      Session.perform k .runLast ((Session.start L).after reqs) =
        .error (.fault .noScript) (((Session.start L).after reqs).addEnvs
          (k + 1 - ((Session.start L).after reqs).envs.size))) ∧
    Fault.foreignHandle.kind = .internalError ∧
    Fault.foreignHandle.message = "Script handle of environment <id> used with environment <id>" ∧
    Fault.noScript.kind = .internalError ∧
    Fault.noScript.message = "No script has been evaluated in this environment" := by
  refine ⟨fun L reqs k => ⟨Session.after_slot L reqs k, Session.after_handles L reqs⟩,
    Session.invoke_own, Session.runLast_fresh, Session.invoke_foreign, Session.evaluate_error,
    fun L reqs k hnone => ?_, rfl, rfl, rfl, rfl⟩
  -- no request compiled a script for `k`, so its slot is still empty
  have hslot : ((Session.start L).after reqs).slot k = none := by
    rw [Session.after_slot, latestScript_eq_none hnone]
  exact Session.runLast_empty _ k hslot

/-- After one script is compiled in environment 0, handle 0 is that environment's, and invoking it
with no target runs the script there. -/
theorem first_handle_runs_its_issuer_script :
    ((Session.start Limits.standard).after [⟨0, .evaluate "1;"⟩]).handles[0]? = some 0 ∧
    Session.perform 0 (.invoke 0 none) ((Session.start Limits.standard).after [⟨0, .evaluate "1;"⟩]) =
      Session.perform 0 .runLast ((Session.start Limits.standard).after [⟨0, .evaluate "1;"⟩]) := by
  have hc : (Run.compileSource "1;").isOk = true := by decide +kernel
  have hiss : issuers [⟨0, .evaluate "1;"⟩] = [0] := by
    cases h : Run.compileSource "1;" with
    | error _ =>
      rw [h] at hc
      cases hc
    | ok code => simp [issuers, Op.compiled, h, Except.toOption]
  have hh := (script_slot_holds_latest_evaluate.1 Limits.standard [⟨0, .evaluate "1;"⟩] 0).2
  have h0 : ((Session.start Limits.standard).after [⟨0, .evaluate "1;"⟩]).handles[0]? = some 0 := by
    rw [← Array.getElem?_toList, hh, hiss]
    rfl
  exact ⟨h0, script_slot_holds_latest_evaluate.2.1 _ 0 0 0 h0⟩

end EcmaLite
