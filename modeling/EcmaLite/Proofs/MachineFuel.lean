import EcmaLite.Proofs.EvalScope

/-!
# More fuel changes no finished run

The runners of the machine take fuel and stop with `Fault.outOfFuel` when it runs out. A run
that finished otherwise, with a value or with another fault (`Run.Done`), finishes the same way
with more fuel (`Run.machine_mono`). The runners are mutually recursive, so this is proved for
all of them at once by induction on the fuel: a runner spends fuel only on the runners it
starts, and each of those finished, so each gives the same result one unit higher.

`Run.FuelMono x` says this of a fuelled computation `x` for every larger amount
(`FuelMono.le`). The runners have it (`exec_fuelMono`, `callWith_fuelMono`,
`construct_fuelMono`); it is what lets a run of the machine be compared with a computation that
spends its fuel in another way.
-/

namespace EcmaLite

/-- Whether a fault says that the run used up its fuel. -/
def Fault.isOutOfFuel : Fault → Bool
  | .outOfFuel => true
  | _ => false

namespace Run

variable {α β : Type}

/-- A result that is not a stop for lack of fuel. -/
def Done : EStateM.Result Fault World α → Prop
  | .ok _ _ => True
  | .error e _ => e.isOutOfFuel = false

@[simp] theorem done_ok {a : α} {w : World} : Done (.ok a w : EStateM.Result Fault World α) :=
  trivial

@[simp] theorem done_error {e : Fault} {w : World} :
    Done (.error e w : EStateM.Result Fault World α) ↔ e.isOutOfFuel = false := Iff.rfl

theorem not_done_outOfFuel {w : World} :
    ¬Done (.error .outOfFuel w : EStateM.Result Fault World α) := by
  simp [Done, Fault.isOutOfFuel]

/-- Running out of fuel is no finished result. -/
theorem not_done_throw {w : World} : ¬Done ((throw .outOfFuel : Run α) w) := not_done_outOfFuel

/-- More fuel leaves every finished result of `x` as it is. -/
def FuelMono (x : Nat → Run α) : Prop :=
  ∀ n w, Done (x n w) → x (n + 1) w = x n w

theorem FuelMono.le {x : Nat → Run α} (h : FuelMono x) {n m : Nat} {w : World} (hnm : n ≤ m)
    (hd : Done (x n w)) : x m w = x n w := by
  induction m, hnm using Nat.le_induction with
  | base => rfl
  | succ m _ ih => rw [h m w (ih ▸ hd), ih]

/-- A computation that takes no fuel. -/
theorem fuelMono_const (x : Run α) : FuelMono fun _ => x := fun _ _ _ => rfl

variable {w : World}

/-- Two runs of a first step and what follows agree on every finished result of the second when
their first steps agree on a finished result and so does what follows, from every value the
first step can give. -/
theorem bind_congr_done {x x' : Run α} {f f' : α → Run β}
    (hd : Done ((x >>= f) w)) (hx : Done (x w) → x' w = x w)
    (hf : ∀ a w', x w = .ok a w' → Done (f a w') → f' a w' = f a w') :
    (x' >>= f') w = (x >>= f) w := by
  show EStateM.bind x' f' w = EStateM.bind x f w
  have hd' : Done (EStateM.bind x f w) := hd
  unfold EStateM.bind at hd' ⊢
  cases hr : x w with
  | ok a w' =>
    rw [hr] at hd'
    rw [hx (by rw [hr]; trivial), hr]
    exact hf a w' hr hd'
  | error e w' =>
    rw [hr] at hd'
    rw [hx (by rw [hr]; exact hd'), hr]

/-- The same first step, and what follows agreeing on finished results. -/
theorem bind_congr_done_right {x : Run α} {f f' : α → Run β} (hd : Done ((x >>= f) w))
    (hf : ∀ a w', x w = .ok a w' → Done (f a w') → f' a w' = f a w') :
    (x >>= f') w = (x >>= f) w :=
  bind_congr_done hd (fun _ => rfl) hf

/-- A counted call finished when the call it counts finished or was refused. -/
theorem counted_congr_done {x y : Run α} (hd : Done (counted x w))
    (h : Done (x (w.withDepth (w.ctx.depth + 1))) →
      y (w.withDepth (w.ctx.depth + 1)) = x (w.withDepth (w.ctx.depth + 1))) :
    counted y w = counted x w := by
  unfold counted at hd ⊢
  split
  · rfl
  · rename_i hlim
    rw [if_neg hlim] at hd
    have hx : Done (x (w.withDepth (w.ctx.depth + 1))) := by
      cases hr : x (w.withDepth (w.ctx.depth + 1)) with
      | ok a w' => trivial
      | error e w' =>
        rw [hr] at hd
        exact hd
    rw [h hx]

end Run

/-! ## Every runner of the machine -/

/-- The machine run on, with fuel `n`, from what an instruction left. -/
def Next.run (n : Nat) : Next → Run Value
  | .go fr => exec n fr
  | .finish v => pure v

namespace Run

open Run

variable {n m : Nat} {w : World}

/-- An instruction that makes no call spends no fuel of its own. -/
theorem step_fuel_free {fr : Frame} {i : Instr} (hi : i.makesCall = false) :
    step (n + 1) fr i = step (m + 1) fr i := by
  cases i <;> simp only [Instr.makesCall, Bool.true_eq_false] at hi <;> simp only [step]

/-- A built-in that runs no code of its own spends no fuel of its own. -/
theorem native_fuel_free {k : Native} {this : Value} {args : List Value}
    (hk : k.runsCode = false) : native (n + 1) k this args = native (m + 1) k this args := by
  cases k
  case eval | call => cases hk
  all_goals unfold native; rfl

/-- A frame runs its instruction, then on from what the instruction left. -/
theorem exec_succ_of_instr {fr : Frame} {i : Instr} (hi : fr.code.instrs[fr.ip]? = some i) :
    exec (n + 1) fr w = (step n { fr with ip := fr.ip + 1 } i >>= Next.run n) w := by
  rw [exec]
  simp only [hi]
  show _ = EStateM.bind _ _ w
  unfold EStateM.bind
  cases step n { fr with ip := fr.ip + 1 } i w with
  | ok nx w' => cases nx <;> rfl
  | error e w' => rfl

/-- A frame past its last instruction finishes with its completion value. -/
theorem exec_succ_of_none {fr : Frame} (hi : fr.code.instrs[fr.ip]? = none) :
    exec (n + 1) fr w = .ok fr.completion w := by
  rw [exec]
  simp only [hi]

/-- What more fuel keeps at fuel `n`: each runner that finished gives the same result with one
unit more. -/
structure MachineMono (n : Nat) : Prop where
  exec : ∀ fr w, Done (exec n fr w) → exec (n + 1) fr w = exec n fr w
  step : ∀ fr i w, Done (step n fr i w) → step (n + 1) fr i w = step n fr i w
  callWith : ∀ f this args w, Done (callWith n f this args w) →
    callWith (n + 1) f this args w = callWith n f this args w
  callObject : ∀ id this args w, Done (callObject n id this args w) →
    callObject (n + 1) id this args w = callObject n id this args w
  invoke : ∀ code global s this args w, Done (invoke n code global s this args w) →
    invoke (n + 1) code global s this args w = invoke n code global s this args w
  construct : ∀ f args w, Done (construct n f args w) →
    construct (n + 1) f args w = construct n f args w
  evalIn : ∀ src s this w, Done (evalIn n src s this w) →
    evalIn (n + 1) src s this w = evalIn n src s this w
  native : ∀ k this args w, Done (native n k this args w) →
    native (n + 1) k this args w = native n k this args w

/-- With no fuel every runner stops for lack of it. -/
theorem machineMono_zero : MachineMono 0 where
  exec _ _ h := absurd h (by simp only [exec]; exact not_done_throw)
  step _ _ _ h := absurd h (by simp only [step]; exact not_done_throw)
  callWith _ _ _ _ h := absurd h (by simp only [callWith]; exact not_done_throw)
  callObject _ _ _ _ h := absurd h (by simp only [callObject]; exact not_done_throw)
  invoke _ _ _ _ _ _ h := absurd h (by simp only [invoke]; exact not_done_throw)
  construct _ _ _ h := absurd h (by simp only [construct]; exact not_done_throw)
  evalIn _ _ _ _ h := absurd h (by simp only [evalIn]; exact not_done_throw)
  native _ _ _ _ h := absurd h (by simp only [native]; exact not_done_throw)

variable (ih : MachineMono n)
include ih

theorem exec_mono_succ {fr : Frame} (hd : Done (exec (n + 1) fr w)) :
    exec (n + 2) fr w = exec (n + 1) fr w := by
  cases hi : fr.code.instrs[fr.ip]? with
  | none => rw [exec_succ_of_none hi, exec_succ_of_none hi]
  | some i =>
    rw [exec_succ_of_instr hi] at hd
    rw [exec_succ_of_instr hi, exec_succ_of_instr hi]
    refine bind_congr_done hd (ih.step _ _ _) fun nx w' _ h => ?_
    cases nx with
    | go fr' => exact ih.exec fr' w' h
    | finish v => rfl

theorem callObject_mono_succ {id : ObjId} {this : Value} {args : List Value}
    (hd : Done (callObject (n + 1) id this args w)) :
    callObject (n + 2) id this args w = callObject (n + 1) id this args w := by
  simp only [callObject] at hd ⊢
  rw [get_bind_apply] at hd
  rw [get_bind_apply, get_bind_apply]
  cases hk : (w.obj id).kind with
  | function name body =>
    rw [hk] at hd
    cases body with
    | native k => exact ih.native _ _ _ w hd
    | script code scope global => exact ih.invoke _ _ _ _ _ _ hd
  | _ => rfl

theorem callWith_mono_succ {f this : Value} {args : List Value}
    (hd : Done (callWith (n + 1) f this args w)) :
    callWith (n + 2) f this args w = callWith (n + 1) f this args w := by
  by_cases hf : ∀ id, f = .obj id → (w.obj id).isCallable = false
  · rw [callWith_not_callable hf, callWith_not_callable hf]
  · obtain ⟨id, rfl, hc⟩ : ∃ id, f = .obj id ∧ (w.obj id).isCallable = true := by
      simpa using hf
    rw [callWith_eq_counted hc] at hd
    rw [callWith_eq_counted hc, callWith_eq_counted hc]
    exact counted_congr_done hd (ih.callObject _ _ _ _)

theorem invoke_mono_succ {code : Code} {global : ObjId} {s : ScopeId} {this : Value}
    {args : List Value} (hd : Done (invoke (n + 1) code global s this args w)) :
    invoke (n + 2) code global s this args w = invoke (n + 1) code global s this args w := by
  simp only [invoke] at hd ⊢
  exact bind_congr_done_right hd fun _ w' _ h => ih.exec _ w' h

theorem construct_mono_succ {f : Value} {args : List Value}
    (hd : Done (construct (n + 1) f args w)) :
    construct (n + 2) f args w = construct (n + 1) f args w := by
  by_cases hf : ∃ id, f = .obj id ∧ (w.obj id).isCallable = true
  · obtain ⟨id, rfl, hc⟩ := hf
    rw [construct_eq hc] at hd
    rw [construct_eq hc, construct_eq hc]
    refine bind_congr_done_right hd fun inst w' _ h => ?_
    rw [discard_bind_apply] at h ⊢
    rw [discard_bind_apply]
    exact bind_congr_done h (ih.callWith _ _ _ _) fun _ _ _ _ => rfl
  · -- no function to construct with: the fault takes no fuel
    simp only [construct]
    rw [get_bind_apply, get_bind_apply]
    cases f with
    | obj id =>
      have hc : (w.obj id).isCallable = false := by simpa using hf
      simp only [hc, Bool.not_false, if_true]
      rfl
    | _ => rfl

theorem evalIn_mono_succ {src : String} {s : ScopeId} {this : Value}
    (hd : Done (evalIn (n + 1) src s this w)) :
    evalIn (n + 2) src s this w = evalIn (n + 1) src s this w := by
  simp only [evalIn] at hd ⊢
  exact bind_congr_done_right hd fun _ w' _ h => by
    rw [get_bind_apply] at h ⊢
    exact ih.invoke _ _ _ _ _ w' h

theorem native_mono_succ {k : Native} {this : Value} {args : List Value}
    (hd : Done (native (n + 1) k this args w)) :
    native (n + 2) k this args w = native (n + 1) k this args w := by
  cases hk : k.runsCode
  · rw [native_fuel_free hk]
  · cases k <;> simp only [Native.runsCode, Bool.false_eq_true] at hk
    case eval =>
      cases args with
      | nil => simp only [native]
      | cons a rest =>
        cases a
        case str src =>
          rw [native_eval_str] at hd
          rw [native_eval_str, native_eval_str]
          exact ih.evalIn _ _ _ w hd
        all_goals simp only [native]
    case call =>
      rw [native_call] at hd
      rw [native_call, native_call]
      exact ih.callWith _ _ _ w hd

theorem step_mono_succ {fr : Frame} {i : Instr} (hd : Done (step (n + 1) fr i w)) :
    step (n + 2) fr i w = step (n + 1) fr i w := by
  cases hi : i.makesCall
  · rw [step_fuel_free hi]
  · cases i <;> simp only [Instr.makesCall, Bool.false_eq_true] at hi
    case call c =>
      rw [step_call_eq] at hd
      rw [step_call_eq, step_call_eq]
      refine bind_congr_done_right hd fun _ w' _ h => ?_
      exact bind_congr_done h (ih.callWith _ _ _ w') fun _ _ _ _ => rfl
    case callMethod c =>
      rw [step_callMethod_eq] at hd
      rw [step_callMethod_eq, step_callMethod_eq]
      refine bind_congr_done_right hd fun _ w' _ h => ?_
      exact bind_congr_done h (ih.callWith _ _ _ w') fun _ _ _ _ => rfl
    case construct c =>
      rw [step_construct_eq] at hd
      rw [step_construct_eq, step_construct_eq]
      refine bind_congr_done_right hd fun _ w' _ h => ?_
      exact bind_congr_done h (ih.construct _ _ w') fun _ _ _ _ => rfl

omit ih

/-- Every runner of the machine, at every fuel, gives every finished result again with one unit
of fuel more. -/
theorem machine_mono (n : Nat) : MachineMono n := by
  induction n with
  | zero => exact machineMono_zero
  | succ n ih =>
    exact {
      exec := fun _ _ hd => exec_mono_succ ih hd
      step := fun _ _ _ hd => step_mono_succ ih hd
      callWith := fun _ _ _ _ hd => callWith_mono_succ ih hd
      callObject := fun _ _ _ _ hd => callObject_mono_succ ih hd
      invoke := fun _ _ _ _ _ _ hd => invoke_mono_succ ih hd
      construct := fun _ _ _ hd => construct_mono_succ ih hd
      evalIn := fun _ _ _ _ hd => evalIn_mono_succ ih hd
      native := fun _ _ _ _ hd => native_mono_succ ih hd }

theorem exec_fuelMono (fr : Frame) : FuelMono fun n => exec n fr :=
  fun n _ hd => (machine_mono n).exec _ _ hd

theorem callWith_fuelMono (f this : Value) (args : List Value) :
    FuelMono fun n => callWith n f this args :=
  fun n _ hd => (machine_mono n).callWith _ _ _ _ hd

theorem construct_fuelMono (f : Value) (args : List Value) :
    FuelMono fun n => construct n f args :=
  fun n _ hd => (machine_mono n).construct _ _ _ hd

end Run

end EcmaLite
