import EcmaLite.Proofs.MachineFuel
import EcmaLite.Proofs.Evaluator

/-!
# Runs of the machine through a stretch of code

A stretch of code runs *as* a computation `x` when the machine, started where the stretch
begins, does what `x` does and then goes on from a point that depends on what `x` gives
(`Sim c nx x k`: from `nx`, as `x`, then on from `k a`). Both sides take fuel, and they spend it
differently: the machine one unit a step, and its calls get what is left; so the relation is
stated between finished runs (`Run.Done`), in both directions:

* whatever `x` gives with some fuel, the machine reaches `k a` with the same world, and a fault
  of `x` is a fault of the machine (`Sim.ok`, `Sim.error`), as in a forward simulation;
* every finished run of the machine with fuel `n` passes through what `x` gives with fuel `n`
  and with any more, and goes on from `k a` with at least `c` units fewer (`Sim.back`).

The relation composes along `bind` (`Sim.bind`), adding the instructions each part passes, and
holds of a single instruction that does what `x` does and keeps its finished results under more
fuel (`Sim.instr`, one instruction passed). The count `c` is what lets a loop be followed round by
round: a round that passes an instruction leaves less fuel for the rounds after it.
-/

namespace EcmaLite

namespace Run

variable {α β : Type} {w : World}

/-! ## Runs taken apart at a bind -/

theorem bind_apply_of_ok {x : Run α} {f : α → Run β} {a : α} {w' : World}
    (h : x w = .ok a w') : (x >>= f) w = f a w' := by
  show EStateM.bind x f w = _
  unfold EStateM.bind
  rw [h]

theorem bind_apply_of_error {x : Run α} {f : α → Run β} {e : Fault} {w' : World}
    (h : x w = .error e w') : (x >>= f) w = .error e w' := by
  show EStateM.bind x f w = _
  unfold EStateM.bind
  rw [h]

/-- A bind that succeeds: both parts did. -/
theorem bind_eq_ok {x : Run α} {f : α → Run β} {b : β} {w' : World}
    (h : (x >>= f) w = .ok b w') : ∃ a w1, x w = .ok a w1 ∧ f a w1 = .ok b w' := by
  cases hx : x w with
  | ok a w1 => exact ⟨a, w1, rfl, (bind_apply_of_ok hx).symm.trans h⟩
  | error e w1 =>
    rw [bind_apply_of_error hx] at h
    cases h

/-- A bind that fails: the first part did, or it succeeded and the rest failed. -/
theorem bind_eq_error {x : Run α} {f : α → Run β} {e : Fault} {w' : World}
    (h : (x >>= f) w = .error e w') :
    x w = .error e w' ∨ ∃ a w1, x w = .ok a w1 ∧ f a w1 = .error e w' := by
  cases hx : x w with
  | ok a w1 => exact .inr ⟨a, w1, rfl, (bind_apply_of_ok hx).symm.trans h⟩
  | error e' w1 =>
    rw [bind_apply_of_error hx] at h
    cases h
    exact .inl rfl

/-! ## Fuel -/

theorem FuelMono.bind {x : Nat → Run α} {f : α → Nat → Run β} (hx : FuelMono x)
    (hf : ∀ a, FuelMono (f a)) : FuelMono fun n => x n >>= fun a => f a n :=
  fun n w hd => bind_congr_done hd (hx n w) fun a w' _ h => hf a n w' h

end Run

open Run

/-- The machine run on from what an instruction left keeps its finished results. -/
theorem Next.run_fuelMono (nx : Next) : FuelMono fun n => nx.run n := by
  cases nx with
  | go fr => exact exec_fuelMono fr
  | finish v => exact fuelMono_const _

/-! ## Finished runs of the machine -/

/-- Run on from `nx` with fuel `n`, the machine ends with `r`, and not for lack of fuel. -/
def Next.RunsIn (n : Nat) (nx : Next) (w : World) (r : EStateM.Result Fault World Value) : Prop :=
  nx.run n w = r ∧ Done r

/-- Run on from `nx` with enough fuel, the machine ends with `r`. -/
def Next.Runs (nx : Next) (w : World) (r : EStateM.Result Fault World Value) : Prop :=
  ∃ n, nx.RunsIn n w r

namespace Next

variable {nx : Next} {w : World} {r : EStateM.Result Fault World Value}

/-- A finished run needs no fuel beyond what it had. -/
theorem RunsIn.mono {n m : Nat} (h : nx.RunsIn n w r) (hnm : n ≤ m) : nx.RunsIn m w r :=
  ⟨((run_fuelMono nx).le hnm (h.1 ▸ h.2)).trans h.1, h.2⟩

/-- A finished value is where the machine stops. -/
theorem runsIn_finish_iff {n : Nat} {v : Value} :
    (Next.finish v).RunsIn n w r ↔ r = .ok v w := by
  constructor
  · exact fun h => h.1.symm
  · rintro rfl
    exact ⟨rfl, trivial⟩

theorem runs_finish {v : Value} : (Next.finish v).Runs w (.ok v w) :=
  ⟨0, runsIn_finish_iff.mpr rfl⟩

/-- No fuel is no finished run. -/
theorem not_runsIn_go_zero {fr : Frame} : ¬(Next.go fr).RunsIn 0 w r := by
  rintro ⟨h, hd⟩
  have h0 : (Next.go fr).run 0 w = .error .outOfFuel w := by
    simp only [Next.run, exec]
    rfl
  rw [h0] at h
  subst h
  exact not_done_outOfFuel hd

end Next

/-! ## Stretches that run as a computation -/

/-- From `nx`, whatever `x` gives leads the machine where `k` says: a value `a` that `x` gives with
some fuel leads it on from `k a` in the same world (`ok`), and a fault of `x` not for lack of fuel
is a fault of the machine (`error`). -/
structure Forward {α : Type} (nx : Next) (x : Nat → Run α) (k : α → Next) : Prop where
  ok : ∀ n w a w', x n w = .ok a w' → ∀ r, (k a).Runs w' r → nx.Runs w r
  error : ∀ n w e w', x n w = .error e w' → e.isOutOfFuel = false → nx.Runs w (.error e w')

namespace Forward

variable {α β : Type} {nx : Next} {x : Nat → Run α} {k : α → Next}

theorem pure (a : α) (h : k a = nx) : Forward nx (fun _ => Pure.pure a) k where
  ok _ _ b w' hx r hr := by
    cases hx
    exact h ▸ hr
  error _ _ _ _ hx := by cases hx

/-- Two stretches one after the other, where the second needs only run from what the first
can give. -/
theorem bind_of {P : α → Prop} {y : α → Nat → Run β} {k' : β → Next} (h1 : Forward nx x k)
    (hP : ∀ n w a w', x n w = .ok a w' → P a) (h2 : ∀ a, P a → Forward (k a) (y a) k') :
    Forward nx (fun n => x n >>= fun a => y a n) k' where
  ok n w b w2 hxy r hr := by
    obtain ⟨a, w1, hx, hy⟩ := bind_eq_ok hxy
    exact h1.ok n w a w1 hx r ((h2 a (hP n w a w1 hx)).ok n w1 b w2 hy r hr)
  error n w e w2 hxy he := by
    rcases bind_eq_error hxy with hx | ⟨a, w1, hx, hy⟩
    · exact h1.error n w e w2 hx he
    · exact h1.ok n w a w1 hx _ ((h2 a (hP n w a w1 hx)).error n w1 e w2 hy he)

theorem bind {y : α → Nat → Run β} {k' : β → Next} (h1 : Forward nx x k)
    (h2 : ∀ a, Forward (k a) (y a) k') : Forward nx (fun n => x n >>= fun a => y a n) k' :=
  h1.bind_of (P := fun _ => True) (fun _ _ _ _ _ => trivial) fun a _ => h2 a

end Forward

/-- From `nx`, the machine runs as `x` does and then on from `k a`, `a` being what `x` gives,
passing at least `c` instructions on the way: forward as `Forward` says, and back, as every
finished run of the machine with fuel `n` passes through what `x` gives with fuel `n` or more,
going on from `k a` with `c` units of fuel fewer at least (`back`). -/
structure Sim {α : Type} (c : Nat) (nx : Next) (x : Nat → Run α) (k : α → Next) : Prop
    extends Forward nx x k where
  back : ∀ n w r, nx.RunsIn n w r →
    (∃ a w' m, m + c ≤ n ∧ (∀ n', n ≤ n' → x n' w = .ok a w') ∧ (k a).RunsIn m w' r) ∨
      (∃ e w', (∀ n', n ≤ n' → x n' w = .error e w') ∧ r = .error e w')

namespace Sim

variable {α β : Type} {c c' : Nat} {nx : Next} {x x' : Nat → Run α} {k : α → Next}

/-- Nothing to run: the machine is already where the computation's value leads. -/
theorem pure (a : α) (h : k a = nx) : Sim 0 nx (fun _ => Pure.pure a) k where
  toForward := .pure a h
  back n w _ hr := .inl ⟨a, w, n, Nat.le_refl n, fun _ _ => rfl, h ▸ hr⟩

/-- The same computation written another way. -/
theorem congr (h : Sim c nx x k) (hx : ∀ n, x' n = x n) : Sim c nx x' k := by
  have hx' : x' = x := funext hx
  exact hx' ▸ h

/-- Fewer instructions passed, as a bound. -/
theorem weaken (h : Sim c nx x k) (hc : c' ≤ c) : Sim c' nx x k where
  toForward := h.toForward
  back n w r hr := by
    rcases h.back n w r hr with ⟨a, w', m, hm, hx, hk⟩ | hfault
    · exact .inl ⟨a, w', m, Nat.le_trans (Nat.add_le_add_left hc m) hm, hx, hk⟩
    · exact .inr hfault

/-- Two stretches one after the other, where the second needs only run from what the first
can give. -/
theorem bind_of {c₁ c₂ : Nat} {P : α → Prop} {y : α → Nat → Run β} {k' : β → Next}
    (h1 : Sim c₁ nx x k) (hP : ∀ n w a w', x n w = .ok a w' → P a)
    (h2 : ∀ a, P a → Sim c₂ (k a) (y a) k') :
    Sim (c₁ + c₂) nx (fun n => x n >>= fun a => y a n) k' where
  toForward := h1.toForward.bind_of hP fun a ha => (h2 a ha).toForward
  back n w r hr := by
    rcases h1.back n w r hr with ⟨a, w1, m, hm, hx, hk⟩ | ⟨e, w1, hx, rfl⟩
    · have ha := hP n w a w1 (hx n (Nat.le_refl n))
      rcases (h2 a ha).back m w1 r hk with ⟨b, w2, m', hm', hy, hk'⟩ | ⟨e, w2, hy, rfl⟩
      · refine .inl ⟨b, w2, m', by omega, fun n' hn' => ?_, hk'⟩
        rw [bind_apply_of_ok (hx n' hn')]
        exact hy n' (by omega)
      · refine .inr ⟨e, w2, fun n' hn' => ?_, rfl⟩
        rw [bind_apply_of_ok (hx n' hn')]
        exact hy n' (by omega)
    · exact .inr ⟨e, w1, fun n' hn' => bind_apply_of_error (hx n' hn'), rfl⟩

/-- Two stretches one after the other: the second starts where the first leads. -/
theorem bind {c₁ c₂ : Nat} {y : α → Nat → Run β} {k' : β → Next} (h1 : Sim c₁ nx x k)
    (h2 : ∀ a, Sim c₂ (k a) (y a) k') :
    Sim (c₁ + c₂) nx (fun n => x n >>= fun a => y a n) k' :=
  bind_of (P := fun _ => True) h1 (fun _ _ _ _ _ => trivial) fun a _ => h2 a

/-- A stretch that computes nothing, then another. -/
theorem andThen {c₁ c₂ : Nat} {nx' : Next} {y : Nat → Run β} {k' : β → Next}
    (h1 : Sim c₁ nx (fun _ => Pure.pure ()) fun _ => nx') (h2 : Sim c₂ nx' y k') :
    Sim (c₁ + c₂) nx y k' :=
  (h1.bind fun _ => h2).congr fun n => (pure_bind () fun _ => y n).symm

/-- One instruction that does what `x` does and leads where `k` says. -/
theorem instr {G : Frame} {i : Instr} (hi : G.code.instrs[G.ip]? = some i)
    (hstep : ∀ n w, step (n + 1) { G with ip := G.ip + 1 } i w = ((fun a => k a) <$> x n) w)
    (hx : FuelMono x) : Sim 1 (.go G) x k where
  ok n w a w' hxa r hr := by
    obtain ⟨m, hrun, hd⟩ := hr
    -- enough fuel for both the instruction's own computation and the rest of the run
    refine ⟨n + m + 2, ?_, hd⟩
    have hxa' : x (n + m) w = .ok a w' := (hx.le (Nat.le_add_right n m) (by rw [hxa]; trivial)).trans hxa
    have hstep' : step (n + m + 1) { G with ip := G.ip + 1 } i w = .ok (k a) w' := by
      rw [hstep]
      show EStateM.map _ (x (n + m)) w = _
      unfold EStateM.map
      rw [hxa']
    show exec (n + m + 1 + 1) G w = r
    rw [exec_succ_of_instr hi, bind_apply_of_ok hstep']
    have hmono := (Next.run_fuelMono (k a)).le (show m ≤ n + m + 1 by omega) (by rw [hrun]; exact hd)
    exact hmono.trans hrun
  error n w e w' hxe he := by
    refine ⟨n + 2, ?_, he⟩
    have hstep' : step (n + 1) { G with ip := G.ip + 1 } i w = .error e w' := by
      rw [hstep]
      show EStateM.map _ (x n) w = _
      unfold EStateM.map
      rw [hxe]
    show exec (n + 1 + 1) G w = _
    rw [exec_succ_of_instr hi, bind_apply_of_error hstep']
  back n w r hr := by
    obtain ⟨hrun, hd⟩ := hr
    change exec n G w = r at hrun
    rcases n with _ | _ | m
    · exact absurd (show (Next.go G).RunsIn 0 w r from ⟨hrun, hd⟩) Next.not_runsIn_go_zero
    · -- the fuel runs out as the instruction starts
      have h0 : step 0 { G with ip := G.ip + 1 } i w = .error .outOfFuel w := by
        simp only [step]
        rfl
      rw [exec_succ_of_instr hi, bind_apply_of_error h0] at hrun
      subst hrun
      exact absurd hd not_done_outOfFuel
    · rw [exec_succ_of_instr hi] at hrun
      -- what the instruction's computation gave with fuel `m`, it gives with more
      have hmono : ∀ {res : EStateM.Result Fault World α}, x m w = res → Done res →
          ∀ n', m + 1 + 1 ≤ n' → x n' w = res := fun hres hdres n' hn' =>
        (hx.le (show m ≤ n' by omega) (hres ▸ hdres)).trans hres
      cases hxm : x m w with
      | ok a w' =>
        have hmap : ((fun a => k a) <$> x m) w = .ok (k a) w' := by
          show EStateM.map _ (x m) w = _
          unfold EStateM.map
          rw [hxm]
        rw [bind_apply_of_ok ((hstep m w).trans hmap)] at hrun
        exact .inl ⟨a, w', m + 1, Nat.le_refl _, hmono hxm trivial, hrun, hd⟩
      | error e w' =>
        have hmap : ((fun a => k a) <$> x m) w = .error e w' := by
          show EStateM.map _ (x m) w = _
          unfold EStateM.map
          rw [hxm]
        rw [bind_apply_of_error ((hstep m w).trans hmap)] at hrun
        subst hrun
        exact .inr ⟨e, w', hmono hxm hd, rfl⟩

end Sim

end EcmaLite
