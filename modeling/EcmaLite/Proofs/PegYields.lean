import EcmaLite.Proofs.PegRuns

/-!
# The results of runs, as rules

`Yields g src m e p r` says by rules what a run with enough fuel gives: `e`, read in mode `m` from
`p`, gives `r`, a success `some (q, ns)` or a failure `none`. Unlike `Reads`, which follows
successes only, it follows failures too, so it checks that a negative lookahead's part fails, that
a choice's first alternative fails before its second is taken, and that a repetition stops where
its part fails.

* The rules are sound: what they give, `run` gives from some fuel on (`Yields.runsTo`), so they
  give one result (`Yields.unique`), the one of any settled run (`Yields.eq_of_runsTo`).
* A derivation is taken apart by the operator at its root (`Yields.seq_some`, `Yields.alt_some`,
  `Yields.notAhead_some`, `Yields.rule_some`, ...), which is how a proof reads off what a
  successful parse checked.
-/

namespace EcmaLite.Peg

variable {ρ : Type}

namespace RunsTo

variable {g : Grammar ρ} {src : Array Char} {m : Mode} {e a : Peg.Expr ρ} {p q : Nat}
  {xs : List (Node ρ)} {r r' : Option (Nat × List (Node ρ))} {k k' : Nat}

/-- A settled run has one result. -/
theorem unique (h : RunsTo g src m e p r k) (h' : RunsTo g src m e p r' k') : r = r' := by
  rw [← h (max k k') (Nat.le_max_left k k') Attempts.empty, h' (max k k') (Nat.le_max_right k k')]

/-- A repetition fails for good when, after an item that read, the rest fails for good (which a
repetition only does for want of fuel). -/
theorem many_none_right (ha : RunsTo g src m a p (some (q, xs)) k) (hq : p < q)
    (hb : RunsTo g src m (.many a) q none k) : RunsTo g src m (.many a) p none (k + 1) := by
  intro n hn t
  obtain ⟨n, rfl, hk⟩ := exists_pred hn
  simp only [run]
  rw [ha.run_eq hk t]
  simp only [if_pos hq]
  rw [hb.run_eq hk]

end RunsTo

/-- The results of runs with enough fuel, as rules: `e`, read in mode `m` from `p`, gives `r`, a
success `some (q, ns)` or a failure `none`. A failure is a result like a success: a choice takes
its second alternative, a repetition stops and a negative lookahead succeeds exactly where a part
yields `none`. -/
inductive Yields (g : Grammar ρ) (src : Array Char) :
    Mode → Peg.Expr ρ → Nat → Option (Nat × List (Node ρ)) → Prop
  | str {m s p} : Yields g src m (.str s) p
      (if matchAt src s p then some (p + s.length, []) else none)
  | rangeSome {m lo hi p c} : src[p]? = some c →
      Yields g src m (.range lo hi) p (if lo ≤ c ∧ c ≤ hi then some (p + 1, []) else none)
  | rangeNone {m lo hi p} : src[p]? = none → Yields g src m (.range lo hi) p none
  | any {m p} : Yields g src m .any p (if p < src.size then some (p + 1, []) else none)
  | start {m p} : Yields g src m .start p (if p = 0 then some (p, []) else none)
  | finish {m p} : Yields g src m .finish p (if p = src.size then some (p, []) else none)
  | blankAtomic {m p} : m.atomic = true → Yields g src m .blank p (some (p, []))
  | blank {m p r} : m.atomic = false → Yields g src m g.blank p r → Yields g src m .blank p r
  | seqSome {m a b p q q' xs ys} : Yields g src m a p (some (q, xs)) →
      Yields g src m b q (some (q', ys)) → Yields g src m (.seq a b) p (some (q', xs ++ ys))
  | seqNoneLeft {m a b p} : Yields g src m a p none → Yields g src m (.seq a b) p none
  | seqNoneRight {m a b p q xs} : Yields g src m a p (some (q, xs)) → Yields g src m b q none →
      Yields g src m (.seq a b) p none
  | altSome {m a b p s} : Yields g src m a p (some s) → Yields g src m (.alt a b) p (some s)
  | altNone {m a b p r} : Yields g src m a p none → Yields g src m b p r →
      Yields g src m (.alt a b) p r
  | optSome {m a p s} : Yields g src m a p (some s) → Yields g src m (.opt a) p (some s)
  | optNone {m a p} : Yields g src m a p none → Yields g src m (.opt a) p (some (p, []))
  | manyNone {m a p} : Yields g src m a p none → Yields g src m (.many a) p (some (p, []))
  | manyStop {m a p q xs} : Yields g src m a p (some (q, xs)) → q ≤ p →
      Yields g src m (.many a) p (some (q, xs))
  | manySome {m a p q q' xs ys} : Yields g src m a p (some (q, xs)) → p < q →
      Yields g src m (.many a) q (some (q', ys)) →
        Yields g src m (.many a) p (some (q', xs ++ ys))
  | manyNoneRight {m a p q xs} : Yields g src m a p (some (q, xs)) → p < q →
      Yields g src m (.many a) q none → Yields g src m (.many a) p none
  | ahead {m a p r} : Yields g src { m with look := m.look.ahead } a p r →
      Yields g src m (.ahead a) p (r.map fun _ => (p, []))
  | notAheadSome {m a p s} : Yields g src { m with look := m.look.notAhead } a p (some s) →
      Yields g src m (.notAhead a) p none
  | notAheadNone {m a p} : Yields g src { m with look := m.look.notAhead } a p none →
      Yields g src m (.notAhead a) p (some (p, []))
  | rule {m x p r} :
      Yields g src { m with atomic := m.atomic || (g.kind x).atomic } (g.body x) p r →
      Yields g src m (.rule x) p (r.map (RunsTo.ruleNodes g m x p))

namespace Yields

variable {g : Grammar ρ} {src : Array Char} {m : Mode} {e a b : Peg.Expr ρ} {p q q' : Nat}
  {xs zs : List (Node ρ)} {r r' : Option (Nat × List (Node ρ))}

/-- The rules are sound: what they give, `run` gives from some fuel on. By induction on the
derivation, each rule being one lemma of `RunsTo` with the parts' thresholds raised to the
larger. -/
theorem runsTo (h : Yields g src m e p r) : ∃ k, RunsTo g src m e p r k := by
  induction h with
  | str => exact ⟨1, RunsTo.str _⟩
  | rangeSome hc => exact ⟨1, RunsTo.range_some hc⟩
  | rangeNone hc => exact ⟨1, RunsTo.range_none hc⟩
  | any => exact ⟨1, RunsTo.any⟩
  | start => exact ⟨1, RunsTo.start⟩
  | finish => exact ⟨1, RunsTo.finish⟩
  | blankAtomic hm => exact ⟨1, RunsTo.blank_atomic hm⟩
  | blank hm _ ih =>
    obtain ⟨k, hk⟩ := ih
    exact ⟨k + 1, RunsTo.blank hm hk⟩
  | seqSome _ _ iha ihb =>
    obtain ⟨ka, ha⟩ := iha
    obtain ⟨kb, hb⟩ := ihb
    exact ⟨max ka kb + 1,
      RunsTo.seq_some (ha.mono (Nat.le_max_left ..)) (hb.mono (Nat.le_max_right ..))⟩
  | seqNoneLeft _ iha =>
    obtain ⟨ka, ha⟩ := iha
    exact ⟨ka + 1, RunsTo.seq_none_left ha⟩
  | seqNoneRight _ _ iha ihb =>
    obtain ⟨ka, ha⟩ := iha
    obtain ⟨kb, hb⟩ := ihb
    exact ⟨max ka kb + 1,
      RunsTo.seq_none_right (ha.mono (Nat.le_max_left ..)) (hb.mono (Nat.le_max_right ..))⟩
  | altSome _ iha =>
    obtain ⟨ka, ha⟩ := iha
    exact ⟨ka + 1, RunsTo.alt_some ha⟩
  | altNone _ _ iha ihb =>
    obtain ⟨ka, ha⟩ := iha
    obtain ⟨kb, hb⟩ := ihb
    exact ⟨max ka kb + 1,
      RunsTo.alt_none (ha.mono (Nat.le_max_left ..)) (hb.mono (Nat.le_max_right ..))⟩
  | optSome _ iha =>
    obtain ⟨ka, ha⟩ := iha
    exact ⟨ka + 1, RunsTo.opt_some ha⟩
  | optNone _ iha =>
    obtain ⟨ka, ha⟩ := iha
    exact ⟨ka + 1, RunsTo.opt_none ha⟩
  | manyNone _ iha =>
    obtain ⟨ka, ha⟩ := iha
    exact ⟨ka + 1, RunsTo.many_none ha⟩
  | manyStop _ hq iha =>
    obtain ⟨ka, ha⟩ := iha
    exact ⟨ka + 1, RunsTo.many_stop ha hq⟩
  | manySome _ hq _ iha ihb =>
    obtain ⟨ka, ha⟩ := iha
    obtain ⟨kb, hb⟩ := ihb
    exact ⟨max ka kb + 1,
      RunsTo.many_some (ha.mono (Nat.le_max_left ..)) hq (hb.mono (Nat.le_max_right ..))⟩
  | manyNoneRight _ hq _ iha ihb =>
    obtain ⟨ka, ha⟩ := iha
    obtain ⟨kb, hb⟩ := ihb
    exact ⟨max ka kb + 1,
      RunsTo.many_none_right (ha.mono (Nat.le_max_left ..)) hq (hb.mono (Nat.le_max_right ..))⟩
  | ahead _ iha =>
    obtain ⟨ka, ha⟩ := iha
    exact ⟨ka + 1, RunsTo.ahead ha⟩
  | notAheadSome _ iha =>
    obtain ⟨ka, ha⟩ := iha
    exact ⟨ka + 1, RunsTo.notAhead_some ha⟩
  | notAheadNone _ iha =>
    obtain ⟨ka, ha⟩ := iha
    exact ⟨ka + 1, RunsTo.notAhead_none ha⟩
  | rule _ iha =>
    obtain ⟨ka, ha⟩ := iha
    exact ⟨ka + 1, RunsTo.rule ha⟩

/-- What the rules give is what a settled run gives. -/
theorem eq_of_runsTo {k : Nat} (h : Yields g src m e p r) (h' : RunsTo g src m e p r' k) :
    r = r' := by
  obtain ⟨k₀, h₀⟩ := h.runsTo
  exact h₀.unique h'

/-- The rules give one result. -/
theorem unique (h : Yields g src m e p r) (h' : Yields g src m e p r') : r = r' := by
  obtain ⟨k', h'⟩ := h'.runsTo
  exact h.eq_of_runsTo h'

/-! ## Taking a derivation apart -/

theorem str_some {s : List Char} (h : Yields g src m (.str s) p (some (q, xs))) :
    matchAt src s p = true ∧ q = p + s.length ∧ xs = [] := by
  generalize hr : some (q, xs) = r at h
  cases h
  split at hr
  · next hm => cases hr; exact ⟨hm, rfl, rfl⟩
  · cases hr

theorem blank_of_atomic (h : Yields g src m .blank p r) (hm : m.atomic = true) :
    r = some (p, []) := by
  cases h with
  | blankAtomic => rfl
  | blank hf => rw [hm] at hf; cases hf

theorem seq_some (h : Yields g src m (.seq a b) p (some (q', zs))) :
    ∃ q xs ys, Yields g src m a p (some (q, xs)) ∧ Yields g src m b q (some (q', ys)) ∧
      zs = xs ++ ys := by
  cases h with
  | seqSome ha hb => exact ⟨_, _, _, ha, hb, rfl⟩

theorem alt_some {s : Nat × List (Node ρ)} (h : Yields g src m (.alt a b) p (some s)) :
    Yields g src m a p (some s) ∨ (Yields g src m a p none ∧ Yields g src m b p (some s)) := by
  cases h with
  | altSome ha => exact .inl ha
  | altNone ha hb => exact .inr ⟨ha, hb⟩

theorem notAhead_some {s : Nat × List (Node ρ)} (h : Yields g src m (.notAhead a) p (some s)) :
    Yields g src { m with look := m.look.notAhead } a p none ∧ s = (p, []) := by
  cases h with
  | notAheadNone ha => exact ⟨ha, rfl⟩

theorem ahead_some {s : Nat × List (Node ρ)} (h : Yields g src m (.ahead a) p (some s)) :
    (∃ s', Yields g src { m with look := m.look.ahead } a p (some s')) ∧ s = (p, []) := by
  generalize hr : some s = r at h
  cases h with
  | ahead ha =>
    rename_i r'
    cases r' with
    | none => cases hr
    | some s' => cases hr; exact ⟨⟨s', ha⟩, rfl⟩

theorem rule_some {x : ρ} {s : Nat × List (Node ρ)} (h : Yields g src m (.rule x) p (some s)) :
    ∃ s', Yields g src { m with atomic := m.atomic || (g.kind x).atomic } (g.body x) p
        (some s') ∧
      s = RunsTo.ruleNodes g m x p s' := by
  generalize hr : some s = r at h
  cases h with
  | rule hb =>
    rename_i r'
    cases r' with
    | none => cases hr
    | some s' => cases hr; exact ⟨s', hb, rfl⟩

/-! ## The operators grammars are written with -/

theorem lit (s : String) : Yields g src m (Peg.Expr.lit s) p
    (if matchAt src s.toList p then some (p + s.length, []) else none) := by
  have h : Yields g src m (.str s.toList) p
      (if matchAt src s.toList p then some (p + s.toList.length, []) else none) := .str
  rwa [String.length_toList] at h

/-- A choice between two alternatives that read the same or fail. -/
theorem alt_flags {s : Nat × List (Node ρ)} {x y : Bool}
    (ha : Yields g src m a p (if x then some s else none))
    (hb : Yields g src m b p (if y then some s else none)) :
    Yields g src m (.alt a b) p (if x || y then some s else none) := by
  cases x with
  | true => exact .altSome ha
  | false => exact .altNone ha (by simpa using hb)

/-- A choice among literal texts gives the first of them that stands at `p`. -/
theorem lits : ∀ ss : List String, Yields g src m (Peg.Expr.lits ss) p (RunsTo.firstLit src ss p)
  | [] => by
    have hnil : Yields g src { m with look := m.look.notAhead } (.str []) p (some (p, [])) := by
      simpa [matchAt] using (Yields.str : Yields g src _ (.str []) p _)
    simpa [Peg.Expr.lits, Peg.Expr.oneOf, RunsTo.firstLit] using Yields.notAheadSome hnil
  | [s] => by
    by_cases hs : matchAt src s.toList p = true
    · simpa [Peg.Expr.lits, Peg.Expr.oneOf, RunsTo.firstLit, hs] using
        (lit s : Yields g src m _ p _)
    · simpa [Peg.Expr.lits, Peg.Expr.oneOf, RunsTo.firstLit, hs] using
        (lit s : Yields g src m _ p _)
  | s :: t :: rest => by
    have hlits : (Peg.Expr.lits (s :: t :: rest) : Peg.Expr ρ) =
        .alt (Peg.Expr.lit s) (Peg.Expr.lits (t :: rest)) := rfl
    rw [hlits]
    by_cases hs : matchAt src s.toList p = true
    · have h := (lit s : Yields g src m _ p _)
      simp only [hs, if_true] at h
      have hfirst : (RunsTo.firstLit src (s :: t :: rest) p : Option (Nat × List (Node ρ))) =
          some (p + s.length, []) := by
        simp [RunsTo.firstLit, List.find?, hs]
      rw [hfirst]
      exact .altSome h
    · have h := (lit s : Yields g src m _ p _)
      simp only [hs, Bool.false_eq_true, if_false] at h
      have hfirst : (RunsTo.firstLit src (s :: t :: rest) p : Option (Nat × List (Node ρ))) =
          RunsTo.firstLit src (t :: rest) p := by
        simp [RunsTo.firstLit, List.find?, hs]
      rw [hfirst]
      exact .altNone h (lits (t :: rest))

/-- A choice that succeeds succeeds by one of its alternatives. -/
theorem oneOf_some {s : Nat × List (Node ρ)} :
    ∀ {items : List (Peg.Expr ρ)}, Yields g src m (Peg.Expr.oneOf items) p (some s) →
      ∃ x ∈ items, Yields g src m x p (some s)
  | [], h => by
    -- the empty choice is `!""`, and `""` always matches
    obtain ⟨hnone, -⟩ := notAhead_some h
    have hmatch := hnone.unique .str
    simp [matchAt] at hmatch
  | [x], h => ⟨x, List.mem_singleton_self x, h⟩
  | x :: y :: rest, h => by
    rcases alt_some h with hx | ⟨-, hrest⟩
    · exact ⟨x, List.mem_cons_self .., hx⟩
    · obtain ⟨z, hz, hzy⟩ := oneOf_some hrest
      exact ⟨z, List.mem_cons_of_mem _ hz, hzy⟩

end Yields

end EcmaLite.Peg
