import EcmaLite.Proofs.CompileRuns
import EcmaLite.Proofs.PlanRun

/-!
# Compiled scripts end as the evaluator's runs

The code `Program.compile` makes of a script, started by `invoke` with no arguments, ends exactly
as the evaluator's run of the script (`Program.eval`) does: with the same value or the same
fault, in the same world, so with the same heap, scopes and bindings and after the same calls.
One of them finishes, given enough fuel, exactly when the other does
(`compiled_script_runs_as_evaluator`).

The script's code is its `var` declarations, its hoisted function declarations, its body and a
`halt` (`Program.lays`); `break` and `continue` never leave a script's body, so the `halt` is
where they would lead. By the lemmas of `CompileRuns` the run from the first instruction is then
one stretch whose computation is `Program.eval` (`Program.sim_compile`), and the two directions
of a stretch (`Sim.toForward` and `Sim.back`) give the two directions of the equivalence.
-/

namespace EcmaLite

/-- The value a script gives once its body ended with `r`: the value of a `return`, else the
completion value. -/
def Exit.result : Exit × Value → Value
  | (.returns v, _) => v
  | (_, cv) => cv

/-- A script's run: its declarations, its hoisted functions, its body, and the value it gives. -/
theorem Program.eval_eq (n : Nat) (p : Program) (ρ : EvalEnv) :
    Program.eval n p ρ = (do
      (varNames p.body).forM fun x => modify (World.declare ρ.scope x)
      (Stmt.hoistedList p.body).forM fun f => do
        let v ← ρ.closure (← Run.lift (f.code false))
        modify (World.bind ρ.scope f.nameText v)
      return Exit.result (← Stmt.evalList n ρ p.body .undefined)) := by
  simp only [Program.eval, hoistedFuncs]
  refine bind_congr fun _ => bind_congr fun _ => bind_congr fun r => ?_
  rcases r with ⟨_ | _ | _ | v, cv⟩ <;> rfl

/-- What `Program.compile` gives: the code the emitter wrote for the script, with no name and no
parameters. -/
theorem Program.compile_eq_ok {p : Program} {c : Code} (h : p.compile = .ok c) :
    ∃ e, (do
      Emit.declareVars (varNames p.body)
      Emit.hoist p.body
      Emit.block p.body
      discard (Emit.emit .halt) : Emit Unit).run (Emitter.start true) = .ok ((), e) ∧
      c = .mk "" [] e.instrs e.consts e.names e.funcs false := by
  unfold Program.compile at h
  cases hrun : (do
    Emit.declareVars (varNames p.body)
    Emit.hoist p.body
    Emit.block p.body
    discard (Emit.emit .halt) : Emit Unit).run (Emitter.start true) with
  | error f =>
    rw [hrun] at h
    cases h
  | ok r =>
    obtain ⟨⟨⟩, e⟩ := r
    rw [hrun] at h
    cases h
    exact ⟨e, rfl, rfl⟩

/-- The code of a script: its declarations, its hoisted functions, its body with `break` and
`continue` leading where the code says, and `halt`. -/
theorem Program.lays (p : Program) :
    LaysAt (Emitter.start true) (do
      Emit.declareVars (varNames p.body)
      Emit.hoist p.body
      Emit.block p.body
      discard (Emit.emit .halt)) fun _ C brk cont a e => ∃ b d q,
        C.Effects a b (fun ρ _ => (varNames p.body).forM fun x =>
          modify (World.declare ρ.scope x)) ∧
        C.Effects b d (fun ρ _ => (Stmt.hoistedList p.body).forM fun f => do
          let v ← ρ.closure (← Run.lift (f.code false))
          modify (World.bind ρ.scope f.nameText v)) ∧
        C.Performs d q brk cont (fun ρ n cv => Stmt.evalList n ρ p.body cv) ∧
        C.instrs[q]? = some .halt ∧ e = q + 1 := by
  refine ((declareVars_lays _ _).bind fun _ E1 g1 => (hoist_lays _ E1).bind
    fun _ E2 g2 => (block_lays _ E2 (g2.isScript.trans g1.isScript)).bind
      fun _ E3 _ => LaysAt.emit .halt).mono fun _ C brk cont a e h => ?_
  obtain ⟨_, b, hD, _, d, hH, _, q, hB, hi, rfl⟩ := h
  exact ⟨b, d, q, hD, hH, hB, hi, rfl⟩

namespace Code

variable {C : Code} {p q : Nat}

/-- `halt` ends the run with the completion value. -/
theorem sim_halt (hi : C.instrs[p]? = some .halt) (ρ : EvalEnv) (st : List Value) (cv : Value) :
    Sim 1 (.go (ρ.frame C p st cv)) (fun _ => pure cv) Next.finish :=
  sim_instr hi (fun _ _ => by simp only [step]; rfl) (Run.fuelMono_const _)

/-- After a script's body, the `halt` where its `break` and `continue` would lead too gives the
script's value. -/
theorem sim_result (hi : C.instrs[q]? = some .halt) (ρ : EvalEnv) (r : Exit × Value) :
    Sim 0 (ρ.after C [] q q q r) (fun _ => pure (Exit.result r)) Next.finish := by
  rcases r with ⟨_ | _ | _ | v, cv⟩
  · exact (sim_halt hi ρ [] cv).weaken (Nat.zero_le _)
  · exact (sim_halt hi ρ [] cv).weaken (Nat.zero_le _)
  · exact (sim_halt hi ρ [] cv).weaken (Nat.zero_le _)
  · exact Sim.pure v rfl

end Code

/-- The code of a script, run from its first instruction with an empty stack, runs as the
evaluator runs the script and ends with the value it gives. -/
theorem Program.sim_compile {p : Program} {c : Code} (h : p.compile = .ok c) (ρ : EvalEnv) :
    Sim 0 (.go (ρ.frame c 0 [] .undefined)) (fun n => Program.eval n p ρ) Next.finish := by
  obtain ⟨e, hrun, rfl⟩ := Program.compile_eq_ok h
  obtain ⟨g, hX⟩ := Program.lays p (fun _ hj => (List.not_mem_nil hj).elim) () e hrun
  -- the script's code closes every loop it opens, so no jump is left to aim
  have hloops : e.loops = [] := List.eq_nil_of_length_eq_zero g.depth
  have hexits : e.exits = [] := by simp only [Emitter.exits, hloops]
  have hC : Code.Holds (.mk "" [] e.instrs e.consts e.names e.funcs false) (Emitter.start true) e
      (e.instrs.size - 1) (e.instrs.size - 1) :=
    { instrs := fun _ _ _ _ => rfl
      exits := fun n hn => absurd (hexits ▸ hn) (List.not_mem_nil)
      consts := Starts.refl _
      names := Starts.refl _
      funcs := Starts.refl _ }
  obtain ⟨b, d, q, hD, hH, hB, hi, hq⟩ := hX _ _ _ hC
  have hq' : e.instrs.size - 1 = q := by omega
  rw [hq'] at hB
  exact (Sim.weaken (c := 0 + (0 + (0 + 0))) ((hD ρ [] _).bind fun _ => (hH ρ [] _).bind fun _ =>
    (hB ρ [] _).bind fun r => Code.sim_result hi ρ r) (Nat.le_refl _)).congr fun n =>
      Program.eval_eq n p ρ

/-- `invoke` with no arguments starts code without parameters at its first instruction. -/
theorem invoke_no_params {c : Code} (hc : c.params = []) (k : Nat) (global : ObjId)
    (s : ScopeId) (recv : Value) :
    invoke (k + 1) c global s recv [] =
      Next.run k (.go (EvalEnv.frame ⟨s, recv, global⟩ c 0 [] .undefined)) := by
  simp only [invoke, hc, Run.bindParams, pure_bind]
  rfl

/-- A script the compiler accepts, started by `invoke` in any world, scope and receiver, finishes
with the same value or fault and in the same world as the evaluator's run of the script, and one
finishes exactly when the other does. -/
theorem compiled_script_runs_as_evaluator {p : Program} {c : Code} (h : p.compile = .ok c)
    (global : ObjId) (s : ScopeId) (recv : Value) (w : World)
    (r : EStateM.Result Fault World Value) :
    (∃ n, invoke n c global s recv [] w = r ∧ Run.Done r) ↔
      ∃ n, Program.eval n p ⟨s, recv, global⟩ w = r ∧ Run.Done r := by
  have hsim := Program.sim_compile h ⟨s, recv, global⟩
  have hparams : c.params = [] := by
    obtain ⟨e, -, rfl⟩ := Program.compile_eq_ok h
    rfl
  constructor
  · rintro ⟨n, hrun, hdone⟩
    cases n with
    | zero =>
      -- no fuel is no finished run
      simp only [invoke] at hrun
      rw [← hrun] at hdone
      exact absurd hdone Run.not_done_throw
    | succ k =>
      rw [invoke_no_params hparams] at hrun
      rcases hsim.back k w r ⟨hrun, hdone⟩ with ⟨a, w', m, -, hx, hfin⟩ | ⟨e, w', hx, rfl⟩
      · exact ⟨k, (hx k (Nat.le_refl k)).trans (Next.runsIn_finish_iff.mp hfin).symm, hdone⟩
      · exact ⟨k, hx k (Nat.le_refl k), hdone⟩
  · rintro ⟨n, hrun, hdone⟩
    have hruns : (Next.go (EvalEnv.frame ⟨s, recv, global⟩ c 0 [] .undefined)).Runs w r := by
      cases r with
      | ok a w' => exact hsim.ok n w a w' hrun _ Next.runs_finish
      | error e w' => exact hsim.error n w e w' hrun hdone
    obtain ⟨k, hk, -⟩ := hruns
    exact ⟨k + 1, (invoke_no_params hparams k global s recv).symm ▸ hk, hdone⟩

/-- The code of a script with a function, a loop, a return and a call, started by `invoke`,
finishes with a result exactly when the evaluator's run of the script finishes with it. -/
theorem loop_function_script_runs_as_evaluated :
    ∃ p c, Program.parse "function f(n) { while (n) n = n - 1; return n; } f(2);" = .ok p ∧
      p.compile = .ok c ∧
      ∀ r, (∃ n, invoke n c 0 0 .undefined [] default = r ∧ Run.Done r) ↔
        ∃ n, Program.eval n p ⟨0, .undefined, 0⟩ default = r ∧ Run.Done r := by
  obtain ⟨p, c, hp, hc⟩ := loop_function_script_compiles
  exact ⟨p, c, hp, hc, compiled_script_runs_as_evaluator hc 0 0 .undefined default⟩

end EcmaLite
