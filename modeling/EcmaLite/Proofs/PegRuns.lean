import EcmaLite.Proofs.PegReads

/-!
# Runs with enough fuel

`run` fails when its fuel runs out, so what it gives at one fuel may change at a larger one.
`RunsTo g src m e p r k` pins a run down for good: from fuel `k` on, and whatever attempts were
recorded before, running `e` in mode `m` from `p` gives `r`, a success `some (q, ns)` or a
failure `none`. Successes and failures are proved alike, since an ordered choice reaches its
second alternative only where the first fails for good.

Each operator gets one lemma that builds the run of a whole from the runs of its parts
(`RunsTo.seq_some`, `RunsTo.alt_none`, `RunsTo.many_some`, `RunsTo.rule`, ...), each unfolding
`run` once; the operators that grammars are written with (`andThen`, `star`, `oneOf`, `lits`)
follow from them. A reading of a whole text is then put together token by token, and
`RunsTo.run_eq` hands it back to `run` at any fuel from the threshold on.
-/

namespace EcmaLite.Peg

variable {ρ : Type} {g : Grammar ρ} {src : Array Char}

/-- From fuel `k` on, and whatever the attempts recorded so far, running `e` in mode `m` from `p`
gives `r`. -/
def RunsTo (g : Grammar ρ) (src : Array Char) (m : Mode) (e : Peg.Expr ρ) (p : Nat)
    (r : Option (Nat × List (Node ρ))) (k : Nat) : Prop :=
  ∀ n, k ≤ n → ∀ t, (run g src n m e p t).2 = r

/-- An outcome is its record and its result. -/
theorem outcome_eq_of_snd {o : Outcome ρ} {r : Option (Nat × List (Node ρ))} (h : o.2 = r) :
    o = (o.1, r) := by
  rw [← h]

namespace RunsTo

variable {m : Mode} {e a b : Peg.Expr ρ} {p q q' k : Nat} {xs ys : List (Node ρ)}
  {r : Option (Nat × List (Node ρ))}

theorem mono {j : Nat} (h : RunsTo g src m e p r k) (hk : k ≤ j) : RunsTo g src m e p r j :=
  fun n hn t => h n (Nat.le_trans hk hn) t

theorem run_eq (h : RunsTo g src m e p r k) {n : Nat} (hn : k ≤ n) (t : Attempts ρ) :
    run g src n m e p t = ((run g src n m e p t).1, r) :=
  outcome_eq_of_snd (h n hn t)

/-- The fuel is one more than some `n` from `k` on. -/
theorem exists_pred {n : Nat} (hn : k + 1 ≤ n) : ∃ n', n = n' + 1 ∧ k ≤ n' :=
  ⟨n - 1, by omega, by omega⟩

/-! ## Leaves -/

theorem str (s : List Char) :
    RunsTo g src m (.str s) p (if matchAt src s p then some (p + s.length, []) else none) 1 := by
  intro n hn t
  obtain ⟨n, rfl, -⟩ := exists_pred (k := 0) hn
  rfl

theorem range_some {lo hi c : Char} (hc : src[p]? = some c) :
    RunsTo g src m (.range lo hi) p (if lo ≤ c ∧ c ≤ hi then some (p + 1, []) else none) 1 := by
  intro n hn t
  obtain ⟨n, rfl, -⟩ := exists_pred (k := 0) hn
  simp only [run, hc]

theorem range_none {lo hi : Char} (hc : src[p]? = none) :
    RunsTo g src m (.range lo hi) p none 1 := by
  intro n hn t
  obtain ⟨n, rfl, -⟩ := exists_pred (k := 0) hn
  simp only [run, hc]

theorem any : RunsTo g src m .any p (if p < src.size then some (p + 1, []) else none) 1 := by
  intro n hn t
  obtain ⟨n, rfl, -⟩ := exists_pred (k := 0) hn
  rfl

theorem start : RunsTo g src m .start p (if p = 0 then some (p, []) else none) 1 := by
  intro n hn t
  obtain ⟨n, rfl, -⟩ := exists_pred (k := 0) hn
  rfl

theorem finish : RunsTo g src m .finish p (if p = src.size then some (p, []) else none) 1 := by
  intro n hn t
  obtain ⟨n, rfl, -⟩ := exists_pred (k := 0) hn
  rfl

theorem blank_atomic (hm : m.atomic = true) : RunsTo g src m .blank p (some (p, [])) 1 := by
  intro n hn t
  obtain ⟨n, rfl, -⟩ := exists_pred (k := 0) hn
  simp only [run, hm, if_true]

theorem blank (hm : m.atomic = false) (h : RunsTo g src m g.blank p r k) :
    RunsTo g src m .blank p r (k + 1) := by
  intro n hn t
  obtain ⟨n, rfl, hk⟩ := exists_pred hn
  simp only [run, hm]
  exact h n hk t

/-! ## Sequence and choice -/

theorem seq_some (ha : RunsTo g src m a p (some (q, xs)) k)
    (hb : RunsTo g src m b q (some (q', ys)) k) :
    RunsTo g src m (.seq a b) p (some (q', xs ++ ys)) (k + 1) := by
  intro n hn t
  obtain ⟨n, rfl, hk⟩ := exists_pred hn
  simp only [run]
  rw [ha.run_eq hk t]
  simp only []
  rw [hb.run_eq hk]

theorem seq_none_left (ha : RunsTo g src m a p none k) :
    RunsTo g src m (.seq a b) p none (k + 1) := by
  intro n hn t
  obtain ⟨n, rfl, hk⟩ := exists_pred hn
  simp only [run]
  rw [ha.run_eq hk t]

theorem seq_none_right (ha : RunsTo g src m a p (some (q, xs)) k)
    (hb : RunsTo g src m b q none k) : RunsTo g src m (.seq a b) p none (k + 1) := by
  intro n hn t
  obtain ⟨n, rfl, hk⟩ := exists_pred hn
  simp only [run]
  rw [ha.run_eq hk t]
  simp only []
  rw [hb.run_eq hk]

theorem alt_some {s : Nat × List (Node ρ)} (ha : RunsTo g src m a p (some s) k) :
    RunsTo g src m (.alt a b) p (some s) (k + 1) := by
  intro n hn t
  obtain ⟨n, rfl, hk⟩ := exists_pred hn
  simp only [run]
  rw [ha.run_eq hk t]

theorem alt_none (ha : RunsTo g src m a p none k) (hb : RunsTo g src m b p r k) :
    RunsTo g src m (.alt a b) p r (k + 1) := by
  intro n hn t
  obtain ⟨n, rfl, hk⟩ := exists_pred hn
  simp only [run]
  rw [ha.run_eq hk t]
  exact hb n hk _

/-- A choice between two alternatives that read the same or fail. -/
theorem alt_flags {s : Nat × List (Node ρ)} {x y : Bool}
    (ha : RunsTo g src m a p (if x then some s else none) k)
    (hb : RunsTo g src m b p (if y then some s else none) k) :
    RunsTo g src m (.alt a b) p (if x || y then some s else none) (k + 1) := by
  cases x with
  | true => exact alt_some ha
  | false => exact alt_none ha (by simpa using hb)

theorem opt_some {s : Nat × List (Node ρ)} (ha : RunsTo g src m a p (some s) k) :
    RunsTo g src m (.opt a) p (some s) (k + 1) := by
  intro n hn t
  obtain ⟨n, rfl, hk⟩ := exists_pred hn
  simp only [run]
  rw [ha.run_eq hk t]

theorem opt_none (ha : RunsTo g src m a p none k) :
    RunsTo g src m (.opt a) p (some (p, [])) (k + 1) := by
  intro n hn t
  obtain ⟨n, rfl, hk⟩ := exists_pred hn
  simp only [run]
  rw [ha.run_eq hk t]

/-! ## Repetition -/

theorem many_none (ha : RunsTo g src m a p none k) :
    RunsTo g src m (.many a) p (some (p, [])) (k + 1) := by
  intro n hn t
  obtain ⟨n, rfl, hk⟩ := exists_pred hn
  simp only [run]
  rw [ha.run_eq hk t]

theorem many_stop (ha : RunsTo g src m a p (some (q, xs)) k) (hq : q ≤ p) :
    RunsTo g src m (.many a) p (some (q, xs)) (k + 1) := by
  intro n hn t
  obtain ⟨n, rfl, hk⟩ := exists_pred hn
  simp only [run]
  rw [ha.run_eq hk t]
  simp only [if_neg (Nat.not_lt.mpr hq)]

theorem many_some (ha : RunsTo g src m a p (some (q, xs)) k) (hq : p < q)
    (hb : RunsTo g src m (.many a) q (some (q', ys)) k) :
    RunsTo g src m (.many a) p (some (q', xs ++ ys)) (k + 1) := by
  intro n hn t
  obtain ⟨n, rfl, hk⟩ := exists_pred hn
  simp only [run]
  rw [ha.run_eq hk t]
  simp only [if_pos hq]
  rw [hb.run_eq hk]

/-! ## Lookahead and rules -/

theorem ahead (ha : RunsTo g src { m with look := m.look.ahead } a p r k) :
    RunsTo g src m (.ahead a) p (r.map fun _ => (p, [])) (k + 1) := by
  intro n hn t
  obtain ⟨n, rfl, hk⟩ := exists_pred hn
  simp only [run]
  rw [ha.run_eq hk t]

theorem notAhead_some {s : Nat × List (Node ρ)}
    (ha : RunsTo g src { m with look := m.look.notAhead } a p (some s) k) :
    RunsTo g src m (.notAhead a) p none (k + 1) := by
  intro n hn t
  obtain ⟨n, rfl, hk⟩ := exists_pred hn
  simp only [run]
  rw [ha.run_eq hk t]

theorem notAhead_none (ha : RunsTo g src { m with look := m.look.notAhead } a p none k) :
    RunsTo g src m (.notAhead a) p (some (p, [])) (k + 1) := by
  intro n hn t
  obtain ⟨n, rfl, hk⟩ := exists_pred hn
  simp only [run]
  rw [ha.run_eq hk t]

/-- The nodes a call of rule `x` gives for what its body read from `p` to `q`: a node of its own
when the rule is visible and the call makes nodes, else the body's nodes. -/
def ruleNodes (g : Grammar ρ) (m : Mode) (x : ρ) (p : Nat) (s : Nat × List (Node ρ)) :
    Nat × List (Node ρ) :=
  (s.1, if (g.kind x).visible = true ∧ m.look = .none ∧ m.atomic = false then [⟨x, p, s.1, s.2⟩]
    else s.2)

theorem rule {x : ρ} (hb : RunsTo g src { m with atomic := m.atomic || (g.kind x).atomic }
    (g.body x) p r k) : RunsTo g src m (.rule x) p (r.map (ruleNodes g m x p)) (k + 1) := by
  intro n hn t
  obtain ⟨n, rfl, hk⟩ := exists_pred hn
  simp only [run]
  by_cases hv : (g.kind x).visible = true
  · simp only [hv, if_true]
    rw [hb.run_eq hk t]
    cases r with
    | none => rfl
    | some s =>
      by_cases hl : m.look = .none ∧ m.atomic = false
      · simp only [Option.map_some, ruleNodes, hv, hl, and_self, if_true]
      · simp only [Option.map_some, ruleNodes, hv, hl, true_and, if_false]
  · simp only [hv, Bool.false_eq_true, if_false]
    rw [hb n hk t]
    cases r with
    | none => rfl
    | some s => simp [ruleNodes, hv]

/-! ## The operators grammars are written with -/

theorem lit (s : String) : RunsTo g src m (Peg.Expr.lit s) p
    (if matchAt src s.toList p then some (p + s.length, []) else none) 1 := by
  have h : RunsTo g src m (.str s.toList) p
      (if matchAt src s.toList p then some (p + s.toList.length, []) else none) 1 := str s.toList
  rwa [String.length_toList] at h

theorem oneOf_cons_of_ne_nil {x : Peg.Expr ρ} {rest : List (Peg.Expr ρ)} (h : rest ≠ []) :
    Peg.Expr.oneOf (x :: rest) = .alt x (Peg.Expr.oneOf rest) := by
  cases rest with
  | nil => exact absurd rfl h
  | cons y rest => rfl

/-- A choice among alternatives that all fail fails. -/
theorem oneOf_none : ∀ {items : List (Peg.Expr ρ)}, (∀ x ∈ items, RunsTo g src m x p none k) →
    RunsTo g src m (Peg.Expr.oneOf items) p none (k + items.length + 2)
  | [], _ => by
    have hnil : RunsTo g src { m with look := m.look.notAhead } (.str []) p (some (p, [])) 1 := by
      simpa [matchAt] using str (g := g) (m := { m with look := m.look.notAhead }) (p := p) []
    exact (notAhead_some hnil).mono (by omega)
  | [x], h => (h x (List.mem_singleton_self x)).mono (by omega)
  | x :: y :: rest, h => by
    have hx := (h x (List.mem_cons_self ..)).mono (j := k + rest.length + 3) (by omega)
    have hrest : RunsTo g src m (Peg.Expr.oneOf (y :: rest)) p none (k + (y :: rest).length + 2) :=
      oneOf_none fun z hz => h z (List.mem_cons_of_mem _ hz)
    have hrest' := hrest.mono (j := k + rest.length + 3) (by simp; omega)
    rw [oneOf_cons_of_ne_nil (List.cons_ne_nil y rest)]
    exact (alt_none hx hrest').mono (by simp; omega)

/-- A choice gives the first alternative that succeeds. -/
theorem oneOf_some {s : Nat × List (Node ρ)} {x : Peg.Expr ρ} {post : List (Peg.Expr ρ)} :
    ∀ {pre : List (Peg.Expr ρ)}, (∀ y ∈ pre, RunsTo g src m y p none k) →
      RunsTo g src m x p (some s) k →
      RunsTo g src m (Peg.Expr.oneOf (pre ++ x :: post)) p (some s) (k + pre.length + 1)
  | [], _, hx => by
    cases post with
    | nil => exact hx.mono (by omega)
    | cons y post => exact alt_some hx
  | z :: pre, hpre, hx => by
    have hz := (hpre z (List.mem_cons_self ..)).mono (j := k + pre.length + 1) (by omega)
    have hrest : RunsTo g src m (Peg.Expr.oneOf (pre ++ x :: post)) p (some s)
        (k + pre.length + 1) := oneOf_some (fun y hy => hpre y (List.mem_cons_of_mem _ hy)) hx
    rw [List.cons_append, oneOf_cons_of_ne_nil (by simp)]
    exact (alt_none hz hrest).mono (by rw [List.length_cons]; omega)

/-- What a choice among literal texts reads: the first of them that stands at `p`. -/
def firstLit (src : Array Char) (ss : List String) (p : Nat) : Option (Nat × List (Node ρ)) :=
  (ss.find? fun s => matchAt src s.toList p).map fun s => (p + s.length, [])

theorem lits : ∀ ss : List String,
    RunsTo g src m (Peg.Expr.lits ss) p (firstLit src ss p) (ss.length + 2)
  | [] => by
    have h : RunsTo g src m (Peg.Expr.oneOf []) p none (0 + 0 + 2) := oneOf_none (by simp)
    simpa [Peg.Expr.lits, firstLit] using h
  | [s] => by
    have h : RunsTo g src m (Peg.Expr.lit s) p
        (if matchAt src s.toList p then some (p + s.length, []) else none) 1 := lit s
    by_cases hs : matchAt src s.toList p = true
    · simp only [hs, if_true] at h
      simpa [Peg.Expr.lits, Peg.Expr.oneOf, firstLit, hs] using h.mono (j := 3) (by omega)
    · simp only [hs, Bool.false_eq_true, if_false] at h
      simpa [Peg.Expr.lits, Peg.Expr.oneOf, firstLit, hs] using h.mono (j := 3) (by omega)
  | s :: t :: rest => by
    have hrest := lits (t :: rest)
    have h : RunsTo g src m (Peg.Expr.lit s) p
        (if matchAt src s.toList p then some (p + s.length, []) else none) (rest.length + 3) :=
      (lit s).mono (by omega)
    have hlits : (Peg.Expr.lits (s :: t :: rest) : Peg.Expr ρ) =
        .alt (Peg.Expr.lit s) (Peg.Expr.lits (t :: rest)) := rfl
    rw [hlits]
    by_cases hs : matchAt src s.toList p = true
    · simp only [hs, if_true] at h
      have hfirst : (firstLit src (s :: t :: rest) p : Option (Nat × List (Node ρ))) =
          some (p + s.length, []) := by
        simp [firstLit, List.find?, hs]
      rw [hfirst]
      exact (alt_some h).mono (by simp)
    · simp only [hs, Bool.false_eq_true, if_false] at h
      have hfirst : (firstLit src (s :: t :: rest) p : Option (Nat × List (Node ρ))) =
          firstLit src (t :: rest) p := by
        simp [firstLit, List.find?, hs]
      rw [hfirst]
      exact (alt_none h (hrest.mono (by simp))).mono (by simp)

end RunsTo

end EcmaLite.Peg
