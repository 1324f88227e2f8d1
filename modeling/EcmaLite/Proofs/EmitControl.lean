import EcmaLite.Proofs.EmitRun

/-!
# Compiling control flow

The stretches of code with jumps in them. A jump forward is written before its target is known,
with target `0`, and aimed once the code it jumps over is written; a loop's `break`s and
`continue`s are aimed when the loop closes. Each combinator of the compiler appends a planned
stretch (`Emits`) as soon as the code it is given does: `&&` and `||` (`logicalCode_emits`),
`? :` and `if`-`else` (`condCode_emits`), `if` (`ifCode_emits`), expression statements,
`return`, `break` and `continue`, and the loops (`whileCode_emits`, `forCode_emits`), which share
one argument (`loop_emitted`): every jump lands where the plan has the shape the jump leaves.
-/

namespace EcmaLite

namespace Emitter

variable {E E' : Emitter}

/-- The new exits of the body of a loop are all the exits of the loop. -/
theorem newExit_enter (E E' : Emitter) (n : Nat) :
    ({ E with loops := ⟨[], []⟩ :: E.loops } : Emitter).NewExit E' n ↔ n ∈ E'.exits := by
  simp [NewExit, exits]

/-- The body of a loop opened at `E` leaves the exits of the new loop, all written since. -/
theorem loops_of_enter (h : ({ E with loops := ⟨[], []⟩ :: E.loops } : Emitter).Extends E') :
    ∃ l : LoopJumps, E'.loops = l :: E.loops ∧ E'.exits = l.breaks ++ l.continues ∧
      ∀ j ∈ E'.exits, E.instrs.size ≤ j ∧ j < E'.instrs.size := by
  have hdepth := h.depth
  have houter := h.outer
  cases hL : E'.loops with
  | nil =>
    rw [hL] at hdepth
    cases hdepth
  | cons l rest =>
    rw [hL, List.tail_cons] at houter
    refine ⟨l, by rw [houter]; rfl, by unfold exits; rw [hL], fun j hj => ?_⟩
    rcases h.grow.fresh j hj with hj' | hj'
    · simp [exits] at hj'
    · exact hj'

end Emitter

namespace EmitsAt

variable {E : Emitter} {B : Emit Unit} {x : StackShape → StackShape}

/-- A conditional jump over a stretch that keeps the shape, aimed at the end of the stretch once
it is written. -/
theorem jumpOver (hE : E.Ok) {J : Instr} (hJ : J = .jumpIfFalse 0 ∨ J = .jumpIfTrue 0)
    (hB : ∀ E1, E.Extends E1 → EmitsAt E1 B x x) :
    EmitsAt E (Emit.emit J >>= fun j => B >>= fun _ => Emit.aimHere j)
      (fun s => .any :: x s) x := by
  have hrefs : J.RefsIn E := by rcases hJ with rfl | rfl <;> exact (.of_none rfl rfl rfl)
  have htgt : ∀ t, J.target? = some t → t ≤ E.instrs.size + 1 := by
    rcases hJ with rfl | rfl <;> simp [Instr.target?]
  have hJt : ∀ t, J.retarget t = .jumpIfFalse t ∨ J.retarget t = .jumpIfTrue t := by
    rcases hJ with rfl | rfl <;> simp [Instr.retarget]
  intro E' hrun
  obtain ⟨j, E1, hrun1, hrun⟩ := Emit.run_bind_ok hrun
  rw [Emit.run_emit] at hrun1
  cases hrun1
  obtain ⟨⟨⟩, E2, hrun2, hrun3⟩ := Emit.run_bind_ok hrun
  rw [Emit.run_aimHere] at hrun3
  cases hrun3
  have hx1 := Emitter.Extends.push hE hrefs htgt
  obtain ⟨hx2, hp⟩ := hB _ hx1 E2 hrun2
  refine ⟨(hx1.trans hx2).aimHere (Nat.le_refl _), fun s => ?_⟩
  obtain ⟨b, hb0, hb1, hpb⟩ := hp s
  have hlt : E.instrs.size < E2.instrs.size := Nat.lt_of_succ_le (by simpa using hx2.size)
  simp only [Array.size_push] at hb0 hpb
  obtain ⟨g, hg⟩ : ∃ g : Nat → StackShape, g = fun n => if n = E.instrs.size then .any :: x s else b n :=
    ⟨_, rfl⟩
  have hg0 : g E.instrs.size = .any :: x s := by rw [hg]; exact if_pos rfl
  have hgb : ∀ n, E.instrs.size < n → g n = b n := fun n hn => by
    rw [hg]; exact if_neg (Nat.ne_of_gt hn)
  refine ⟨g, hg0, by rw [Array.size_modify, hgb _ hlt, hb1], ?_⟩
  rw [Array.size_modify]
  -- the jump, then the stretch it jumps over
  have hget : (E2.instrs.modify E.instrs.size (Instr.retarget E2.instrs.size))[E.instrs.size]? =
      some (J.retarget E2.instrs.size) := by
    rw [Array.getElem?_modify, if_pos rfl, hx2.kept _ (by simp)]
    simp
  refine Planned.join (q := E.instrs.size + 1) ?_ ?_
  · refine Planned.single hget (PlanStep.of_cond (hJt _) hg0
      (by rw [hgb _ (Nat.lt_succ_self _), hb0]) (by rw [hgb _ hlt, hb1])) (fun t ht => ?_) ?_
    · rcases hJt E2.instrs.size with h | h <;> rw [h] at ht <;> cases ht <;>
        exact ⟨Nat.le_of_lt hlt, Nat.le_refl _⟩
    · -- an exit left in the stretch lies after the jump
      intro hX
      rcases hx2.grow.fresh _ hX.1 with h | h
      · exact hX.2 h
      · exact absurd h.1 (by simp)
  · exact ((hpb.mono fun n hn _ => by
      rw [Array.getElem?_modify, if_neg (by omega)]).congr_plan (Nat.le_refl _) (Nat.le_refl _)
      fun n hn _ => hgb n hn).widen (Nat.le_succ _) (Nat.le_refl _)

end EmitsAt

section Combinators

variable {e x : StackShape → StackShape}

theorem logicalCode_emits (op : LogicalOp) {l r : Emit Unit}
    (hl : Emits l e fun s => .any :: e s) (hr : Emits r e fun s => .any :: e s) :
    Emits (Emit.logicalCode op l r) e fun s => .any :: e s := by
  intro E hE
  have hcode : Emit.logicalCode op l r = (l >>= fun _ => discard (Emit.emit .dup) >>= fun _ =>
      Emit.emit (if op = .and then .jumpIfFalse 0 else .jumpIfTrue 0) >>= fun j =>
        (discard (Emit.emit .pop) >>= fun _ => r) >>= fun _ => Emit.aimHere j) := by
    simp only [Emit.logicalCode, bind_assoc]
  rw [hcode]
  refine (hl E hE).seq fun E1 h1 => ?_
  refine (EmitsAt.emit h1.ok (i := .dup) (.of_none rfl rfl rfl) rfl
    (fun s => ⟨by simp [Instr.pops], fun _ => Instr.noConfusion⟩) fun s => rfl).seq
    fun E2 h2 => ?_
  refine EmitsAt.jumpOver h2.ok (by cases op <;> simp) fun E3 h3 => ?_
  refine (EmitsAt.emit h3.ok (i := .pop) (.of_none rfl rfl rfl) rfl
    (fun s => ⟨by simp [Instr.pops], fun _ => Instr.noConfusion⟩) fun s => rfl).seq
    fun E4 h4 => hr E4 h4.ok

/-- `if` without `else`: a conditional jump over the branch. -/
theorem ifCode_emits {test yes : Emit Unit} (htest : Emits test x fun s => .any :: x s)
    (hyes : Emits yes x x) : Emits (Emit.ifCode test yes) x x := by
  intro E hE
  exact (htest E hE).seq fun E1 h1 =>
    EmitsAt.jumpOver h1.ok (.inl rfl) fun E2 h2 => hyes E2 h2.ok

/-- An expression statement: the value goes to the completion value or is dropped. -/
theorem exprStmt_emits {m : Emit Unit} (h : Emits m x fun s => .any :: x s) :
    Emits (Emit.exprStmt m) x x := by
  intro E hE
  refine (h E hE).seq fun E1 h1 => EmitsAt.get_bind ?_
  by_cases hs : E1.isScript
  · simp only [hs, if_true]
    exact EmitsAt.emit h1.ok (i := .setCompletion) (.of_none rfl rfl rfl) rfl
      (fun s => ⟨by simp [Instr.pops], fun _ => Instr.noConfusion⟩) fun s => rfl
  · simp only [hs]
    exact EmitsAt.emit h1.ok (i := .pop) (.of_none rfl rfl rfl) rfl
      (fun s => ⟨by simp [Instr.pops], fun _ => Instr.noConfusion⟩) fun s => rfl

/-- `return`: the value, or `undefined`, then `ret`. -/
theorem retCode_emits {arg : Option (Emit Unit)}
    (harg : ∀ m, arg = some m → Emits m (fun _ => []) fun _ => [.any]) :
    Emits (Emit.retCode arg) (fun _ => []) fun _ => [] := by
  intro E hE
  cases arg with
  | some m =>
    exact (harg m rfl E hE).seq fun E1 h1 => EmitsAt.emit h1.ok (i := .ret)
      (.of_none rfl rfl rfl) rfl (fun s => ⟨by simp [Instr.pops], fun _ => Instr.noConfusion⟩)
      fun s => rfl
  | none =>
    exact (EmitsAt.emit hE (i := .pushUndefined) (.of_none rfl rfl rfl) rfl
      (fun s => ⟨by simp [Instr.pops], fun _ => Instr.noConfusion⟩) fun s => rfl).seq
      fun E1 h1 => EmitsAt.emit h1.ok (i := .ret) (.of_none rfl rfl rfl) rfl
        (fun s => ⟨by decide, fun _ => Instr.noConfusion⟩) fun s => rfl

/-- `break` and `continue`: a `jump` at an empty stack, left to the innermost loop. -/
theorem loopExit_emits (b : Bool) : Emits (Emit.loopExit b) (fun _ => []) fun _ => [] := by
  intro E hE E' hrun
  cases hl : E.loops with
  | nil => exact absurd hrun (Emit.run_loopExit_ne_ok hl E')
  | cons l rest =>
    rw [Emit.run_loopExit hl] at hrun
    cases hrun
    -- the exits afterwards are the old ones and the new jump
    have hmem : ∀ j, j ∈ Emitter.exits { E with
        instrs := E.instrs.push (.jump 0)
        loops := (if b then { l with breaks := E.instrs.size :: l.breaks }
          else { l with continues := E.instrs.size :: l.continues }) :: rest } ↔
        j = E.instrs.size ∨ j ∈ E.exits := by
      intro j
      unfold Emitter.exits
      rw [hl]
      cases b <;> simp only [Bool.false_eq_true, if_false, if_true, List.mem_append,
        List.mem_cons] <;> tauto
    have hnew : E.instrs.size ∉ E.exits := fun h => Nat.lt_irrefl _ (hE.exits _ h)
    refine ⟨⟨(hE.push (i := .jump 0) (.of_none rfl rfl rfl)
      (by simp [Instr.target?])).with_loops fun j hj => ?_,
      ⟨by simp, fun j hj => (hmem j).mpr (.inr hj), fun j hj => ?_⟩,
      fun n hn => by simp only [Array.getElem?_push, if_neg (Nat.ne_of_lt hn)],
      Nat.le_refl _, Nat.le_refl _, Nat.le_refl _, by simp [hl], by simp [hl], rfl⟩,
      fun s => ⟨fun _ => [], rfl, rfl, ?_⟩⟩
    · rcases (hmem j).mp hj with rfl | hj'
      · simp
      · simpa using Nat.lt_succ_of_lt (hE.exits j hj')
    · rcases (hmem j).mp hj with rfl | hj'
      · exact .inr ⟨Nat.le_refl _, by simp⟩
      · exact .inl hj'
    · -- the one instruction is the new exit
      constructor
      · intro n hpn hnq hX
        have hn : n = E.instrs.size :=
          Nat.le_antisymm (Nat.le_of_lt_succ (by simpa using hnq)) hpn
        exact absurd ⟨(hmem n).mpr (.inl hn), hn ▸ hnew⟩ hX
      · intro n hpn hnq _
        have hn : n = E.instrs.size :=
          Nat.le_antisymm (Nat.le_of_lt_succ (by simpa using hnq)) hpn
        subst hn
        exact ⟨by simp, rfl⟩

/-- `test ? yes : no`, and `if` with `else`: a conditional jump to the second branch, and a jump
from the end of the first branch over the second. -/
theorem condCode_emits {test yes no : Emit Unit} (htest : Emits test e fun s => .any :: e s)
    (hyes : Emits yes e x) (hno : Emits no e x) : Emits (Emit.condCode test yes no) e x := by
  intro E hE E' hrun
  -- the steps: test, `jumpIfFalse`, yes, `jump`, aim the first jump, no, aim the second
  obtain ⟨⟨⟩, E1, h1, hrun⟩ := Emit.run_bind_ok hrun
  obtain ⟨j, E2, h2, hrun⟩ := Emit.run_bind_ok hrun
  rw [Emit.run_emit] at h2
  cases h2
  obtain ⟨⟨⟩, E3, h3, hrun⟩ := Emit.run_bind_ok hrun
  obtain ⟨k, E4, h4, hrun⟩ := Emit.run_bind_ok hrun
  rw [Emit.run_emit] at h4
  cases h4
  obtain ⟨⟨⟩, E5, h5, hrun⟩ := Emit.run_bind_ok hrun
  rw [Emit.run_aimHere] at h5
  cases h5
  obtain ⟨⟨⟩, E6, h6, h7⟩ := Emit.run_bind_ok hrun
  rw [Emit.run_aimHere] at h7
  cases h7
  obtain ⟨hx1, hp1⟩ := htest E hE E1 h1
  have hx2 := Emitter.Extends.push hx1.ok (i := .jumpIfFalse 0) (.of_none rfl rfl rfl)
    (by simp [Instr.target?])
  obtain ⟨hx3, hp3⟩ := hyes _ hx2.ok E3 h3
  have hx4 := Emitter.Extends.push hx3.ok (i := .jump 0) (.of_none rfl rfl rfl)
    (by simp [Instr.target?])
  have hx5 := ((hx2.trans hx3).trans hx4).aimHere (Nat.le_refl _)
  obtain ⟨hx6, hp6⟩ := hno _ hx5.ok E6 h6
  have h01 : E.instrs.size ≤ E1.instrs.size := hx1.size
  have h13 : E1.instrs.size + 1 ≤ E3.instrs.size := by simpa using hx3.size
  have h36 : E3.instrs.size + 1 ≤ E6.instrs.size := by simpa using hx6.size
  have hx7 := (hx5.trans hx6).aimHere (j := E3.instrs.size) (by omega)
  refine ⟨hx1.trans hx7, fun s => ?_⟩
  obtain ⟨ta, ht0, ht1, hpt⟩ := hp1 s
  obtain ⟨ya, hy0, hy1, hpy⟩ := hp3 s
  obtain ⟨na, hn0, hn1, hpn⟩ := hp6 s
  simp only [Array.size_push, Array.size_modify] at hy0 hpy hn0 hpn
  -- one plan for the whole: the test's, then the first branch's, then the second's
  obtain ⟨g, hg⟩ : ∃ g : Nat → StackShape, g = fun n =>
      if n ≤ E1.instrs.size then ta n else if n ≤ E3.instrs.size then ya n else na n := ⟨_, rfl⟩
  have hgt : ∀ n, n ≤ E1.instrs.size → g n = ta n := fun n hn => by
    rw [hg]; exact if_pos hn
  have hgy : ∀ n, E1.instrs.size < n → n ≤ E3.instrs.size → g n = ya n := fun n hn hn' => by
    rw [hg]; simp only [if_neg (Nat.not_le_of_lt hn), if_pos hn']
  have hgn : ∀ n, E3.instrs.size < n → g n = na n := fun n hn => by
    rw [hg]; simp only [if_neg (Nat.not_le_of_lt hn), if_neg (Nat.not_le_of_lt (by omega : E1.instrs.size < n))]
  refine ⟨g, by rw [hgt _ hx1.size, ht0], by rw [Array.size_modify, hgn _ (by omega), hn1], ?_⟩
  rw [Array.size_modify]
  -- what the final code holds, stretch by stretch
  have hyesKept : ∀ n, E1.instrs.size + 1 ≤ n → n < E3.instrs.size →
      (E6.instrs.modify E3.instrs.size (Instr.retarget E6.instrs.size))[n]? = E3.instrs[n]? := by
    intro n hn hn'
    rw [Array.getElem?_modify, if_neg (by omega), hx6.kept n (by simp; omega),
      Array.getElem?_modify, if_neg (by omega), Array.getElem?_push, if_neg (by omega)]
  have hjif : (E6.instrs.modify E3.instrs.size (Instr.retarget E6.instrs.size))[E1.instrs.size]? =
      some (.jumpIfFalse (E3.instrs.size + 1)) := by
    rw [Array.getElem?_modify, if_neg (by omega), hx6.kept _ (by simp; omega),
      Array.getElem?_modify, if_pos rfl, Array.getElem?_push, if_neg (by omega),
      hx3.kept _ (by simp)]
    simp [Instr.retarget]
  have hjump : (E6.instrs.modify E3.instrs.size (Instr.retarget E6.instrs.size))[E3.instrs.size]? =
      some (.jump E6.instrs.size) := by
    rw [Array.getElem?_modify, if_pos rfl, hx6.kept _ (by simp), Array.getElem?_modify,
      if_neg (by omega)]
    simp
  -- the exits of the whole are those of its three stretches
  have hg27 : Emitter.ExitsGrow { E1 with instrs := E1.instrs.push (.jumpIfFalse 0) }
      { E6 with instrs := E6.instrs.modify E3.instrs.size (Instr.retarget E6.instrs.size) } :=
    hx3.grow.trans (hx4.grow.trans ((Emitter.exitsGrow_instrs (by simp)).trans
      (hx6.grow.trans (Emitter.exitsGrow_instrs (by simp)))))
  have hg47 : Emitter.ExitsGrow { E3 with instrs := E3.instrs.push (.jump 0) }
      { E6 with instrs := E6.instrs.modify E3.instrs.size (Instr.retarget E6.instrs.size) } :=
    (Emitter.exitsGrow_instrs (by simp)).trans (hx6.grow.trans (Emitter.exitsGrow_instrs (by simp)))
  refine Planned.join (q := E1.instrs.size) ?_ (Planned.join (q := E1.instrs.size + 1) ?_
    (Planned.join (q := E3.instrs.size) ?_ (Planned.join (q := E3.instrs.size + 1) ?_ ?_)))
  · exact hpt.transport (fun n _ hn => hx7.kept n hn)
      (fun n _ hn => (Emitter.newExit_left_iff hx7.grow hn).symm) (fun n _ hn => hgt n hn)
      (Nat.le_refl _) (by omega)
  · refine Planned.single hjif (PlanStep.of_cond (.inl rfl) (by rw [hgt _ (Nat.le_refl _), ht1])
      (by rw [hgy _ (Nat.lt_succ_self _) (by omega), hy0]) (by rw [hgn _ (by omega), hn0]))
      (fun t ht => ?_) (Emitter.not_newExit_push hx1.grow hg27)
    cases ht
    omega
  · refine hpy.transport hyesKept (fun n hn hn' => ?_) (fun n hn hn' => hgy n (by omega) hn')
      (by omega) (by omega)
    rw [Emitter.newExit_right_iff hx1.grow (by omega), Emitter.newExit_right_iff hx2.grow
      (by simpa using hn), Emitter.newExit_left_iff (hx4.grow.trans hg47) hn']
  · refine Planned.single hjump (PlanStep.of_jump (by rw [hgy _ (by omega) (Nat.le_refl _), hy1])
      (by rw [hgn _ (by omega), hn1])) (fun t ht => ?_)
      (Emitter.not_newExit_push (hx1.grow.trans (hx2.grow.trans hx3.grow)) hg47)
    cases ht
    omega
  · exact hpn.transport (fun n hn _ => by rw [Array.getElem?_modify, if_neg (by omega)])
      (fun n hn _ => (Emitter.newExit_right_iff (hx1.trans hx5).grow (by simpa using hn)).symm)
      (fun n hn _ => hgn n (by omega)) (by omega) (Nat.le_refl _)

/-! ### Loops -/

/-- Closing a loop leaves every instruction but its exits. -/
theorem getElem?_close_of_not_mem {is : Array Instr} {bs cs : List Nat} {c t n : Nat}
    (hn : n ∉ bs ++ cs) : (aimAll (aimAll is cs c) bs t)[n]? = is[n]? := by
  rw [List.mem_append, not_or] at hn
  rw [getElem?_aimAll, if_neg hn.1, getElem?_aimAll, if_neg hn.2]

/-- Closing a loop aims its `break`s at `t` and its `continue`s at `c`. -/
theorem getElem?_close_of_mem {is : Array Instr} {bs cs : List Nat} {c t n : Nat}
    (hjump : is[n]? = some (.jump 0)) (hn : n ∈ bs ++ cs) :
    ∃ u, (u = t ∨ u = c) ∧ (aimAll (aimAll is cs c) bs t)[n]? = some (.jump u) := by
  by_cases hb : n ∈ bs
  · refine ⟨t, .inl rfl, ?_⟩
    rw [getElem?_aimAll, if_pos hb, getElem?_aimAll]
    split <;> simp [hjump]
  · have hc : n ∈ cs := by simpa [hb] using hn
    exact ⟨c, .inr rfl, by rw [getElem?_aimAll, if_neg hb, getElem?_aimAll, if_pos hc, hjump]; rfl⟩

/-- Closing a loop plans its exits, when the plan has the empty stack where they go. -/
theorem Planned.close {is F : Array Instr} {a : Nat → StackShape} {X Y : Nat → Prop}
    {p q lo hi c t : Nat} {bs cs : List Nat} (h : Planned is a X p q lo hi)
    (hX : ∀ n, p ≤ n → n < q → (X n ↔ n ∈ bs ++ cs))
    (hF : ∀ n, p ≤ n → n < q → F[n]? = (aimAll (aimAll is cs c) bs t)[n]?)
    (hc : a c = [] ∧ lo ≤ c ∧ c ≤ hi) (ht : a t = [] ∧ lo ≤ t ∧ t ≤ hi)
    (hY : ∀ n, p ≤ n → n < q → ¬Y n) : Planned F a Y p q lo hi := by
  refine h.aimExits (fun n hn hn' hXn => ?_) (fun n hn hn' hXn => ?_) hY
  · rw [hF n hn hn', getElem?_close_of_not_mem ((hX n hn hn').not.mp hXn)]
  · obtain ⟨u, hu, hget⟩ := getElem?_close_of_mem (c := c) (t := t) (h.exit n hn hn' hXn).1
      ((hX n hn hn').mp hXn)
    refine ⟨u, (hF n hn hn').trans hget, ?_⟩
    rcases hu with rfl | rfl
    · exact ht
    · exact hc

/-- The head of a loop, from `E` to `E'`: code from the empty stack to the empty stack, or, when
the loop has a test (`exit = some j`), the test followed by the `jumpIfFalse` at `j` that leaves
the loop, still to be aimed. -/
def LoopHead (E E' : Emitter) : Option Nat → Prop
  | none => Emitted E E' (fun _ => []) fun _ => []
  | some j => ∃ E1, Emitted E E1 (fun _ => []) (fun _ => [.any]) ∧ j = E1.instrs.size ∧
      E' = { E1 with instrs := E1.instrs.push (.jumpIfFalse 0) }

namespace LoopHead

variable {E E' : Emitter} {exit : Option Nat}

theorem toExtends (h : LoopHead E E' exit) : E.Extends E' := by
  cases exit with
  | none => exact h.1
  | some j =>
    obtain ⟨E1, h1, -, rfl⟩ := h
    exact h1.1.trans (Emitter.Extends.push h1.1.ok (i := .jumpIfFalse 0) (.of_none rfl rfl rfl)
      (by simp [Instr.target?]))

/-- The exit jump is the head's last instruction. -/
theorem exit_eq (h : LoopHead E E' exit) {j : Nat} (hj : exit = some j) :
    E.instrs.size ≤ j ∧ j + 1 = E'.instrs.size ∧ E'.instrs[j]? = some (.jumpIfFalse 0) := by
  subst hj
  obtain ⟨E1, h1, rfl, rfl⟩ := h
  exact ⟨h1.1.size, by simp, by simp⟩

/-- The head's code, its exit aimed at `t` where the plan has the empty stack, runs as planned
under any plan that agrees with the head's own. -/
theorem planned (h : LoopHead E E' exit) :
    ∃ a : Nat → StackShape, a E.instrs.size = [] ∧ a E'.instrs.size = [] ∧
      ∀ (F : Array Instr) (g : Nat → StackShape) (Y : Nat → Prop) (t lo hi : Nat),
        (∀ n, E.instrs.size ≤ n → n ≤ E'.instrs.size → g n = a n) → g t = [] →
        lo ≤ E.instrs.size → E'.instrs.size ≤ hi → lo ≤ t → t ≤ hi →
        (∀ n, E.instrs.size ≤ n → n < E'.instrs.size → exit ≠ some n → F[n]? = E'.instrs[n]?) →
        (∀ j, exit = some j → F[j]? = some (.jumpIfFalse t)) →
        (∀ n, E.instrs.size ≤ n → n < E'.instrs.size → (E.NewExit E' n ↔ Y n)) →
        Planned F g Y E.instrs.size E'.instrs.size lo hi := by
  cases exit with
  | none =>
    obtain ⟨a, ha0, ha1, hpa⟩ := h.2 []
    exact ⟨a, ha0, ha1, fun F g Y t lo hi hga _ hlo hhi _ _ hsame _ hY =>
      hpa.transport (fun n hn hn' => hsame n hn hn' (Option.some_ne_none n).symm) hY hga hlo hhi⟩
  | some j =>
    obtain ⟨E1, h1, rfl, rfl⟩ := h
    obtain ⟨a, ha0, ha1, hpa⟩ := h1.2 []
    -- the test's plan, and the empty stack after the jump
    refine ⟨fun n => if n ≤ E1.instrs.size then a n else [], by simp [h1.1.size, ha0],
      by simp only [Array.size_push, if_neg (Nat.not_succ_le_self _)], ?_⟩
    intro F g Y t lo hi hga hgt hlo hhi hlot hthi hsame hjump hY
    simp only [Array.size_push] at hga hhi hsame hY ⊢
    refine Planned.join (q := E1.instrs.size) ?_ ?_
    · refine hpa.transport (fun n hn hn' => ?_) (fun n hn hn' => hY n hn (by omega))
        (fun n hn hn' => by rw [hga n hn (by omega), if_pos hn']) hlo (by omega)
      rw [hsame n hn (by omega) fun h => by cases h; omega, Array.getElem?_push,
        if_neg (Nat.ne_of_lt hn')]
    · refine Planned.single (hjump _ rfl) (PlanStep.of_cond (.inl rfl)
        (by rw [hga _ h1.1.size (by omega), if_pos (Nat.le_refl _), ha1])
        (by rw [hga _ (Nat.le_succ_of_le h1.1.size) (Nat.le_refl _), if_neg (by omega)]) hgt)
        (fun t' ht' => ?_) fun hYn => Emitter.not_newExit_push h1.1.grow
          (Emitter.ExitsGrow.refl _) ((hY _ h1.1.size (Nat.lt_succ_self _)).mpr hYn)
      cases ht'
      exact ⟨hlot, hthi⟩

end LoopHead

/-- A loop, from `E` to `E'`: its head, then in the loop the body and the update, a `jump` back to
the head, and the head's exit aimed past the loop; closing the loop aims the `break`s past it and
the `continue`s at `c`, the head or the update. -/
theorem loop_emitted {E E2 E4 E5 E6 E7 E' : Emitter} {exit : Option Nat} {l : LoopJumps} {c : Nat}
    (hhead : LoopHead E E2 exit)
    (hbody : Emitted { E2 with loops := ⟨[], []⟩ :: E2.loops } E4 (fun _ => []) fun _ => [])
    (hupd : Emitted E4 E5 (fun _ => []) fun _ => [])
    (hc : c = E.instrs.size ∨ c = E4.instrs.size)
    (hE6 : E6 = { E5 with instrs := E5.instrs.push (.jump E.instrs.size) })
    (hE7 : E7 = exit.elim E6 fun j =>
      { E6 with instrs := E6.instrs.modify j (Instr.retarget E6.instrs.size) })
    (hl : E7.loops = l :: E2.loops)
    (hE' : E' = { E7 with
      loops := E2.loops
      instrs := aimAll (aimAll E7.instrs l.continues c) l.breaks E7.instrs.size }) :
    Emitted E E' (fun _ => []) fun _ => [] := by
  obtain ⟨hx4, hp4⟩ := hbody
  obtain ⟨hx5, hp5⟩ := hupd
  have hx2 := hhead.toExtends
  obtain ⟨l', hl', hexits5, hfresh⟩ := Emitter.loops_of_enter (hx4.trans hx5)
  have h2 : E.instrs.size ≤ E2.instrs.size := hx2.size
  have h24 : E2.instrs.size ≤ E4.instrs.size := hx4.size
  have h45 : E4.instrs.size ≤ E5.instrs.size := hx5.size
  have hj2 : ∀ j, exit = some j → E.instrs.size ≤ j ∧ j < E2.instrs.size := fun j hj =>
    ⟨(hhead.exit_eq hj).1, by have := (hhead.exit_eq hj).2.1; omega⟩
  -- the jump back, then the head's exit aimed past the loop
  have h6size : E6.instrs.size = E5.instrs.size + 1 := by rw [hE6, Array.size_push]
  have h6get : ∀ n, n < E5.instrs.size → E6.instrs[n]? = E5.instrs[n]? := fun n hn => by
    rw [hE6, Array.getElem?_push, if_neg (Nat.ne_of_lt hn)]
  have h6back : E6.instrs[E5.instrs.size]? = some (.jump E.instrs.size) := by
    rw [hE6, Array.getElem?_push, if_pos rfl]
  have h7same : E7.loops = E6.loops ∧ E7.consts = E6.consts ∧ E7.names = E6.names ∧
      E7.funcs = E6.funcs ∧ E7.isScript = E6.isScript ∧ E7.instrs.size = E6.instrs.size := by
    cases exit <;> subst hE7 <;> simp
  have h7get : ∀ n, exit ≠ some n → E7.instrs[n]? = E6.instrs[n]? := fun n hn => by
    cases exit with
    | none => subst hE7; rfl
    | some j =>
      subst hE7
      exact by rw [Option.elim, Array.getElem?_modify, if_neg fun h : j = n => hn (h ▸ rfl)]
  have h7exit : ∀ j, exit = some j →
      E7.instrs[j]? = E6.instrs[j]?.map (Instr.retarget E6.instrs.size) := fun j hj => by
    subst hj hE7
    exact by rw [Option.elim, Array.getElem?_modify, if_pos rfl]
  have hok6 : E6.Ok := by
    rw [hE6]
    exact hx5.ok.push (i := .jump E.instrs.size) (.of_none rfl rfl rfl) fun t ht => by
      cases ht
      omega
  have hok7 : E7.Ok := by
    cases exit with
    | none => subst hE7; exact hok6
    | some j => subst hE7; exact hok6.reaim (Reaimed.modify (Nat.le_refl _))
  obtain rfl : l' = l := (List.cons.inj (hl'.symm.trans
    ((by rw [hE6] : E6.loops = E5.loops).symm.trans (h7same.1.symm.trans hl)))).1
  -- what the code holds when the loop is closed
  have hexit_lt : ∀ n ∈ l'.breaks ++ l'.continues, E2.instrs.size ≤ n ∧ n < E5.instrs.size :=
    fun n hn => hfresh n (hexits5 ▸ hn)
  have hFsame : ∀ n, n ∉ l'.breaks ++ l'.continues → E'.instrs[n]? = E7.instrs[n]? :=
    fun n hn => by rw [hE']; exact getElem?_close_of_not_mem hn
  have hFloop : ∀ n, E2.instrs.size ≤ n → n < E5.instrs.size →
      E'.instrs[n]? = (aimAll (aimAll E5.instrs l'.continues c) l'.breaks E7.instrs.size)[n]? := by
    intro n hn hn'
    rw [hE', getElem?_aimAll, getElem?_aimAll, getElem?_aimAll, getElem?_aimAll,
      h7get n fun h => by have := hj2 n h; omega, h6get n hn']
  have hsame' : E'.consts = E5.consts ∧ E'.names = E5.names ∧ E'.funcs = E5.funcs ∧
      E'.loops = E2.loops ∧ E'.isScript = E5.isScript ∧ E'.instrs.size = E5.instrs.size + 1 := by
    obtain ⟨-, h72, h73, h74, h75, h76⟩ := h7same
    rw [hE']
    simp only [size_aimAll, h72, h73, h74, h75, h76, hE6, Array.size_push, and_self]
  have hsize' := hsame'.2.2.2.2.2
  have hexits' : E'.exits = E2.exits := by rw [hE']; rfl
  have hkept : ∀ n, n < E2.instrs.size → exit ≠ some n → E'.instrs[n]? = E2.instrs[n]? :=
    fun n hn hne => by
      rw [hFsame n fun hm => by have := hexit_lt n hm; omega, h7get n hne, h6get n (by omega)]
      exact (hx4.trans hx5).kept n hn
  have hYnot : ∀ n, E2.instrs.size ≤ n → ¬E.NewExit E' n := fun n hn hY => by
    rcases hx2.grow.fresh n (hexits' ▸ hY.1) with h | h
    · exact hY.2 h
    · omega
  have hcle : c ≤ E5.instrs.size := by rcases hc with rfl | rfl <;> omega
  refine ⟨⟨?_, ⟨by omega, fun j hj => hexits' ▸ hx2.grow.exits j hj, fun j hj => ?_⟩,
    fun n hn => (hkept n (by omega) fun h => by have := hj2 n h; omega).trans (hx2.kept n hn),
    ?_, ?_, ?_, ?_, ?_, ?_⟩, fun s => ?_⟩
  · rw [hE']
    refine (hok7.reaim ((Reaimed.aimAll (by rw [h7same.2.2.2.2.2]; omega)).trans
      (Reaimed.aimAll (Nat.le_refl _)))).with_loops fun j hj => ?_
    have := hx2.ok.exits j hj
    simp only [size_aimAll, h7same.2.2.2.2.2]
    omega
  · rcases hx2.grow.fresh j (hexits' ▸ hj) with h | h
    · exact .inl h
    · exact .inr ⟨h.1, by omega⟩
  · rw [hsame'.1]; exact Nat.le_trans hx2.consts (Nat.le_trans hx4.consts hx5.consts)
  · rw [hsame'.2.1]; exact Nat.le_trans hx2.names (Nat.le_trans hx4.names hx5.names)
  · rw [hsame'.2.2.1]; exact Nat.le_trans hx2.funcs (Nat.le_trans hx4.funcs hx5.funcs)
  · rw [hsame'.2.2.2.1]; exact hx2.depth
  · rw [hsame'.2.2.2.1]; exact hx2.outer
  · rw [hsame'.2.2.2.2.1]; exact hx5.isScript.trans (hx4.isScript.trans hx2.isScript)
  -- one plan for the whole: the head's, the body's, the update's, and the empty stack after
  obtain ⟨ha, ha0, ha2, hheadp⟩ := hhead.planned
  obtain ⟨b, hb0, hb1, hpb⟩ := hp4 []
  obtain ⟨u, hu0, hu1, hpu⟩ := hp5 []
  obtain ⟨g, hg⟩ : ∃ g : Nat → StackShape, g = fun n =>
      if n ≤ E2.instrs.size then ha n else if n ≤ E4.instrs.size then b n
      else if n ≤ E5.instrs.size then u n else [] := ⟨_, rfl⟩
  have hga : ∀ n, n ≤ E2.instrs.size → g n = ha n := fun n hn => by
    rw [hg]; exact if_pos hn
  have hgb : ∀ n, E2.instrs.size ≤ n → n ≤ E4.instrs.size → g n = b n := fun n hn hn' => by
    by_cases h : n ≤ E2.instrs.size
    · obtain rfl : n = E2.instrs.size := by omega
      rw [hga _ h, ha2]
      exact hb0.symm
    · rw [hg]; simp only [if_neg h, if_pos hn']
  have hgu : ∀ n, E4.instrs.size ≤ n → n ≤ E5.instrs.size → g n = u n := fun n hn hn' => by
    by_cases h : n ≤ E4.instrs.size
    · obtain rfl : n = E4.instrs.size := by omega
      rw [hgb _ h24 h, hb1, hu0]
    · rw [hg]; simp only [if_neg h, if_neg (show ¬n ≤ E2.instrs.size by omega), if_pos hn']
  have hge : ∀ n, E5.instrs.size < n → g n = [] := fun n hn => by
    rw [hg]
    simp only [if_neg (show ¬n ≤ E2.instrs.size by omega), if_neg (show ¬n ≤ E4.instrs.size by omega),
      if_neg (show ¬n ≤ E5.instrs.size by omega)]
  have hg0 : g E.instrs.size = [] := by rw [hga _ h2, ha0]
  have hgc : g c = [] ∧ E.instrs.size ≤ c ∧ c ≤ E5.instrs.size + 1 := by
    refine ⟨?_, by rcases hc with rfl | rfl <;> omega, by omega⟩
    rcases hc with rfl | rfl
    · exact hg0
    · rw [hgb _ h24 (Nat.le_refl _), hb1]
  have hgt : g E7.instrs.size = [] ∧ E.instrs.size ≤ E7.instrs.size ∧
      E7.instrs.size ≤ E5.instrs.size + 1 := by
    rw [h7same.2.2.2.2.2, h6size]
    exact ⟨hge _ (Nat.lt_succ_self _), by omega, Nat.le_refl _⟩
  refine ⟨g, hg0, by rw [hsize', hge _ (Nat.lt_succ_self _)], ?_⟩
  rw [hsize']
  refine Planned.join (q := E2.instrs.size) ?_ (Planned.join (q := E4.instrs.size) ?_
    (Planned.join (q := E5.instrs.size) ?_ ?_))
  · -- the head, its exit aimed past the loop
    refine hheadp E'.instrs g _ (E5.instrs.size + 1) _ _ (fun n _ hn => hga n hn)
      (hge _ (Nat.lt_succ_self _)) (Nat.le_refl _) (by omega) (by omega) (Nat.le_refl _)
      (fun n _ hn hne => hkept n hn hne) (fun j hj => ?_) fun n _ _ => ?_
    · rw [hFsame j fun hm => by have := hexit_lt j hm; have := hj2 j hj; omega, h7exit j hj,
        h6get j (by have := hj2 j hj; omega), (hx4.trans hx5).kept j (hj2 j hj).2,
        (hhead.exit_eq hj).2.2, h6size]
      rfl
    · unfold Emitter.NewExit
      rw [hexits']
  · -- the body, its exits aimed
    refine (((hpb.mono fun n _ hn' => hx5.kept n hn').congr_plan (Nat.le_refl _) (Nat.le_refl _)
      fun n hn hn' => hgb n hn hn').widen h2 (by omega)).close (fun n hn hn' => ?_)
      (fun n hn hn' => hFloop n hn (by omega)) hgc hgt fun n hn _ => hYnot n hn
    refine (Emitter.newExit_enter _ _ n).trans ⟨fun h => hexits5 ▸ hx5.grow.exits n h, fun h => ?_⟩
    rcases hx5.grow.fresh n (hexits5 ▸ h) with h' | h'
    · exact h'
    · omega
  · -- the update, its exits aimed
    refine ((hpu.congr_plan (Nat.le_refl _) (Nat.le_refl _) fun n hn hn' =>
      hgu n hn hn').widen (by omega) (by omega)).close (fun n hn hn' => ?_)
      (fun n hn hn' => hFloop n (by omega) hn') hgc hgt fun n hn _ => hYnot n (by omega)
    refine ⟨fun h => hexits5 ▸ h.1, fun h => ⟨hexits5 ▸ h, fun h4 => ?_⟩⟩
    have := hx4.ok.exits n h4
    omega
  · -- the jump back to the head
    refine Planned.single (i := .jump E.instrs.size) ?_
      (PlanStep.of_jump (by rw [hgu _ h45 (Nat.le_refl _), hu1]) hg0) (fun t ht => ?_)
      (hYnot _ (by omega))
    · rw [hFsame _ fun hm => by have := hexit_lt _ hm; omega,
        h7get _ fun h => by have := hj2 _ h; omega, h6back]
    · cases ht
      omega

/-- A `while` loop: the test and its exit, the body, and a jump back to the test; `continue`
goes to the test. -/
theorem whileCode_emits {test body : Emit Unit} (htest : Emits test (fun _ => []) fun _ => [.any])
    (hbody : Emits body (fun _ => []) fun _ => []) :
    Emits (Emit.whileCode test body) (fun _ => []) fun _ => [] := by
  intro E hE E' hrun
  obtain ⟨start, E0, h0, hrun⟩ := Emit.run_bind_ok hrun
  rw [Emit.run_here] at h0
  cases h0
  obtain ⟨⟨⟩, E1, h1, hrun⟩ := Emit.run_bind_ok hrun
  obtain ⟨exit, E2, h2, hrun⟩ := Emit.run_bind_ok hrun
  rw [Emit.run_emit] at h2
  cases h2
  obtain ⟨⟨⟩, E3, h3, hrun⟩ := Emit.run_bind_ok hrun
  rw [Emit.run_enterLoop] at h3
  cases h3
  obtain ⟨⟨⟩, E4, h4, hrun⟩ := Emit.run_bind_ok hrun
  obtain ⟨⟨⟩, E6, h6, hrun⟩ := Emit.run_bind_ok hrun
  obtain ⟨⟨⟩, E7, h7, h8⟩ := Emit.run_bind_ok hrun
  have hhead : LoopHead E { E1 with instrs := E1.instrs.push (.jumpIfFalse 0) }
      (some E1.instrs.size) := ⟨E1, htest E hE E1 h1, rfl, rfl⟩
  have hb := hbody _ (hhead.toExtends.ok.with_loops (by simp [Emitter.exits])) E4 h4
  rw [Emit.run_discard_emit] at h6
  rw [Emit.run_aimHere] at h7
  have hE6 := (Prod.mk.inj (Except.ok.inj h6)).2.symm
  have hE7 := (Prod.mk.inj (Except.ok.inj h7)).2.symm
  obtain ⟨l, hl, -⟩ := Emitter.loops_of_enter hb.1
  have hl7 : E7.loops = l :: E1.loops := by rw [hE7, hE6]; exact hl
  rw [Emit.run_leaveLoop hl7] at h8
  exact loop_emitted hhead hb (Emitted.refl hb.1.ok) (.inl rfl) hE6 hE7 hl7
    (Prod.mk.inj (Except.ok.inj h8)).2.symm

/-- The test of a `for` loop makes its head. -/
theorem loopTest_head {test : Option (Emit Unit)} {E E' : Emitter} {exit : Option Nat}
    (htest : ∀ m, test = some m → Emits m (fun _ => []) fun _ => [.any]) (hE : E.Ok)
    (h : (Emit.loopTest test).run E = .ok (exit, E')) : LoopHead E E' exit := by
  cases test with
  | none =>
    cases h
    exact Emitted.refl hE
  | some t =>
    obtain ⟨⟨⟩, E1, h1, h2⟩ := Emit.run_bind_ok h
    rw [StateT.run_map, Emit.run_emit] at h2
    cases h2
    exact ⟨E1, htest t rfl E hE E1 h1, rfl, rfl⟩

theorem loopUpdate_emits {update : Option (Emit Unit)}
    (hupdate : ∀ m, update = some m → Emits m (fun _ => []) fun _ => [.any]) :
    Emits (Emit.loopUpdate update) (fun _ => []) fun _ => [] := by
  intro E hE
  cases update with
  | none => exact EmitsAt.pure_unit hE
  | some m =>
    exact (hupdate m rfl E hE).seq fun E1 h1 => EmitsAt.emit h1.ok (i := .pop)
      (.of_none rfl rfl rfl) rfl (fun s => ⟨by simp [Instr.pops], fun _ => Instr.noConfusion⟩)
      fun s => rfl

/-- A `for` loop: the initialiser, the test and its exit if there is one, the body, the update
if there is one, and a jump back to the test; `continue` goes to the update. -/
theorem forCode_emits {init body : Emit Unit} {test update : Option (Emit Unit)}
    (hinit : Emits init (fun _ => []) fun _ => [])
    (htest : ∀ m, test = some m → Emits m (fun _ => []) fun _ => [.any])
    (hupdate : ∀ m, update = some m → Emits m (fun _ => []) fun _ => [.any])
    (hbody : Emits body (fun _ => []) fun _ => []) :
    Emits (Emit.forCode init test update body) (fun _ => []) fun _ => [] := by
  intro E hE
  refine (hinit E hE).seq fun E0 h0 E' hrun => ?_
  obtain ⟨start, E0', hh, hrun⟩ := Emit.run_bind_ok hrun
  rw [Emit.run_here] at hh
  cases hh
  obtain ⟨exit, E2, h2, hrun⟩ := Emit.run_bind_ok hrun
  have hhead := loopTest_head htest h0.ok h2
  obtain ⟨⟨⟩, E3, h3, hrun⟩ := Emit.run_bind_ok hrun
  rw [Emit.run_enterLoop] at h3
  cases h3
  obtain ⟨⟨⟩, E4, h4, hrun⟩ := Emit.run_bind_ok hrun
  have hb := hbody _ (hhead.toExtends.ok.with_loops (by simp [Emitter.exits])) E4 h4
  obtain ⟨next, E4', hn, hrun⟩ := Emit.run_bind_ok hrun
  rw [Emit.run_here] at hn
  cases hn
  obtain ⟨⟨⟩, E5, h5, hrun⟩ := Emit.run_bind_ok hrun
  have hu := loopUpdate_emits hupdate E4 hb.1.ok E5 h5
  obtain ⟨⟨⟩, E6, h6, hrun⟩ := Emit.run_bind_ok hrun
  obtain ⟨⟨⟩, E7, h7, h8⟩ := Emit.run_bind_ok hrun
  rw [Emit.run_discard_emit] at h6
  rw [Emit.run_aimExit] at h7
  have hE6 := (Prod.mk.inj (Except.ok.inj h6)).2.symm
  have hE7 := (Prod.mk.inj (Except.ok.inj h7)).2.symm
  obtain ⟨l, hl, -⟩ := Emitter.loops_of_enter (hb.1.trans hu.1)
  have hl7 : E7.loops = l :: E2.loops := by
    rw [hE7]
    cases exit <;> (simp only [Option.elim]; rw [hE6]; exact hl)
  rw [Emit.run_leaveLoop hl7] at h8
  exact loop_emitted hhead hb hu (.inr rfl) hE6 hE7 hl7 (Prod.mk.inj (Except.ok.inj h8)).2.symm

end Combinators

end EcmaLite
