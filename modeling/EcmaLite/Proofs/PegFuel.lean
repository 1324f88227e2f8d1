import EcmaLite.Proofs.PegYields

/-!
# Fuel that is enough

`parse` runs a grammar with fuel proportional to the text, and a run out of fuel fails, so a
parse could in principle fail, or take another alternative, only for want of fuel. This module
shows that it cannot for a grammar with a *fuel plan*: from every position, every expression of
the grammar has a settled result (`RunsTo`) by a budget that grows by a fixed amount, `perChar`,
for each character after the position.

A plan says which rules may succeed without reading (`nullable`) and how much fuel a call of each
rule needs before it reads a character (`need`); `Expr.need` adds up the nesting that an
expression reaches at its own position, where only a nullable item lets the next one start there
too. A run that has read a character is paid for by `perChar`. Its conditions are checked rule by
rule, so for a given grammar they are closed facts.

Main results:
* `FuelPlan.settlesBy`: every expression of the grammar settles from every position within its
  budget; a success reads forward, reads nothing only where the expression is nullable, and makes
  only *settled* nodes: nodes that their rule's body gives for good (`Node.Settled`).
* `FuelPlan.parse_ok_settled`: the nodes of a successful `parse` are settled, and so are their
  children (`Node.Settled.children`).
-/

namespace EcmaLite.Peg

variable {ρ : Type}

namespace Expr

/-- Whether `e` may succeed without reading, when the rules that may are those of `N`. -/
def nullable (N : ρ → Bool) : Peg.Expr ρ → Bool
  | .str s => s.isEmpty
  | .range _ _ | .any => false
  | .start | .finish | .blank => true
  | .rule r => N r
  | .seq a b => a.nullable N && b.nullable N
  | .alt a b => a.nullable N || b.nullable N
  | .opt _ | .many _ | .ahead _ | .notAhead _ => true

/-- The fuel `e` needs at a position before it reads there, when a call of rule `r` needs `F r`
and the blanks need `B`: one unit per operator, the most any part needs, and the second item of a
sequence counted only when the first may read nothing. -/
def need (N : ρ → Bool) (F : ρ → Nat) (B : Nat) : Peg.Expr ρ → Nat
  | .str _ | .range _ _ | .any | .start | .finish => 1
  | .blank => B + 1
  | .rule r => F r
  | .seq a b => (if a.nullable N then max (a.need N F B) (b.need N F B) else a.need N F B) + 1
  | .alt a b => max (a.need N F B) (b.need N F B) + 1
  | .opt a | .many a | .ahead a | .notAhead a => a.need N F B + 1

/-- The largest `need` of `e` and of the expressions inside it. -/
def maxNeed (N : ρ → Bool) (F : ρ → Nat) (B : Nat) (e : Peg.Expr ρ) : Nat :=
  max (e.need N F B) (match e with
    | .seq a b | .alt a b => max (a.maxNeed N F B) (b.maxNeed N F B)
    | .opt a | .many a | .ahead a | .notAhead a => a.maxNeed N F B
    | _ => 0)

end Expr

/-- A fuel plan for grammar `g`. A rule is nullable when its body is, a call needs more than its
body, the blanks need no more than `blankNeed`, and `perChar` covers the need of every expression
inside a body, of the blanks and of every call. -/
structure FuelPlan (g : Grammar ρ) where
  /-- The rules that may succeed without reading. -/
  nullable : ρ → Bool
  /-- The fuel a call of each rule needs before it reads. -/
  need : ρ → Nat
  /-- The fuel the blanks need before they read. -/
  blankNeed : Nat
  /-- The fuel paid for each character read. -/
  perChar : Nat
  nullable_of_body : ∀ r, (g.body r).nullable nullable = true → nullable r = true
  need_body : ∀ r, (g.body r).need nullable need blankNeed < need r
  need_blank : g.blank.need nullable need blankNeed ≤ blankNeed
  maxNeed_body : ∀ r, (g.body r).maxNeed nullable need blankNeed ≤ perChar
  maxNeed_blank : g.blank.maxNeed nullable need blankNeed ≤ perChar
  need_le : ∀ r, need r ≤ perChar

/-- A node that its rule's body gives for good: the rule is visible, and its body, read from the
node's start in the mode of a body whose call makes nodes, reaches the node's stop with the node's
children at every fuel from some point on. -/
structure Node.Settled (g : Grammar ρ) (src : Array Char) (nd : Node ρ) : Prop where
  visible : (g.kind nd.rule).visible = true
  start_le : nd.start ≤ nd.stop
  stop_le : nd.stop ≤ src.size
  body : ∃ k, RunsTo g src ⟨.none, (g.kind nd.rule).atomic⟩ (g.body nd.rule) nd.start
    (some (nd.stop, nd.children)) k

theorem matchAt_le_size {src : Array Char} :
    ∀ {s : List Char} {p : Nat}, p ≤ src.size → matchAt src s p = true →
      p + s.length ≤ src.size
  | [], _, hp, _ => by simpa using hp
  | c :: rest, p, _, h => by
    simp only [matchAt, Bool.and_eq_true, beq_iff_eq] at h
    have hp : p < src.size := (Array.getElem?_eq_some_iff.mp h.1).1
    have hrest := matchAt_le_size (Nat.succ_le_of_lt hp) h.2
    simp only [List.length_cons]
    omega

namespace FuelPlan

variable {g : Grammar ρ} (P : FuelPlan g) (src : Array Char)

/-- The need of an expression under the plan. -/
def needs (e : Peg.Expr ρ) : Nat := e.need P.nullable P.need P.blankNeed

/-- The largest need inside an expression under the plan. -/
def maxNeeds (e : Peg.Expr ρ) : Nat := e.maxNeed P.nullable P.need P.blankNeed

/-- The fuel that settles `e` at `p`: its need there and `perChar` for each character after. -/
def budget (e : Peg.Expr ρ) (p : Nat) : Nat := P.perChar * (src.size - p) + P.needs e

/-- What a settled result of `e` from `p` is like: a success stops between `p` and the end of the
text, stops at `p` only where `e` is nullable, and makes settled nodes. -/
def Reach (e : Peg.Expr ρ) (p : Nat) : Option (Nat × List (Node ρ)) → Prop
  | none => True
  | some (q, ns) => p ≤ q ∧ q ≤ src.size ∧ (q = p → e.nullable P.nullable = true) ∧
      ∀ nd ∈ ns, nd.Settled g src

/-- `e` settles at `p` by fuel `k`, in mode `m`, with a result that it yields and that is as
`Reach` says. -/
def SettlesAt (m : Mode) (e : Peg.Expr ρ) (p k : Nat) : Prop :=
  ∃ r, RunsTo g src m e p r k ∧ Yields g src m e p r ∧ P.Reach src e p r

/-- Every expression of the grammar whose budget at a position is at most `k` settles there by
fuel `k`, in every mode. -/
def SettlesBy (k : Nat) : Prop :=
  ∀ (m : Mode) (e : Peg.Expr ρ) (p : Nat), P.budget src e p ≤ k →
    P.maxNeeds e ≤ P.perChar → p ≤ src.size → P.SettlesAt src m e p k

variable {P src}

theorem needs_le_maxNeeds (e : Peg.Expr ρ) : P.needs e ≤ P.maxNeeds e := by
  unfold maxNeeds Expr.maxNeed
  exact Nat.le_max_left _ _

theorem one_le_needs (e : Peg.Expr ρ) : 1 ≤ P.needs e := by
  cases e with
  | rule r => have := P.need_body r; simp only [needs, Expr.need]; omega
  | _ => simp only [needs, Expr.need]; omega

theorem maxNeeds_of_two {e a b : Peg.Expr ρ} (he : e = .seq a b ∨ e = .alt a b) :
    P.maxNeeds e = max (P.needs e) (max (P.maxNeeds a) (P.maxNeeds b)) := by
  rcases he with rfl | rfl <;> rfl

theorem maxNeeds_of_one {e a : Peg.Expr ρ}
    (he : e = .opt a ∨ e = .many a ∨ e = .ahead a ∨ e = .notAhead a) :
    P.maxNeeds e = max (P.needs e) (P.maxNeeds a) := by
  rcases he with rfl | rfl | rfl | rfl <;> rfl

/-- A part read at the same position needs less than the whole. -/
theorem budget_lt_of_needs_lt (src : Array Char) (p : Nat) {e e' : Peg.Expr ρ}
    (h : P.needs e' < P.needs e) :
    P.budget src e' p < P.budget src e p := by
  simp only [budget]
  omega

/-- A part read after the whole has read a character costs less than the whole. -/
theorem budget_lt_of_lt {e e' : Peg.Expr ρ} {p q : Nat} (hpq : p < q) (hq : q ≤ src.size)
    (h : P.needs e' ≤ P.perChar) : P.budget src e' q < P.budget src e p := by
  have hrest : P.perChar * (src.size - q) + P.perChar ≤ P.perChar * (src.size - p) := by
    calc P.perChar * (src.size - q) + P.perChar = P.perChar * (src.size - q + 1) :=
          (Nat.mul_succ _ _).symm
      _ ≤ P.perChar * (src.size - p) := Nat.mul_le_mul_left _ (by omega)
  have := P.one_le_needs e
  simp only [budget]
  omega

theorem reach_none {e : Peg.Expr ρ} {p : Nat} : P.Reach src e p none := trivial

theorem reach_some {e : Peg.Expr ρ} {p q : Nat} {ns : List (Node ρ)} (hpq : p ≤ q)
    (hq : q ≤ src.size) (hnull : q = p → e.nullable P.nullable = true)
    (hns : ∀ nd ∈ ns, nd.Settled g src) : P.Reach src e p (some (q, ns)) :=
  ⟨hpq, hq, hnull, hns⟩

/-- A success that reads nothing, at a position inside the text, of a nullable expression. -/
theorem reach_here {e : Peg.Expr ρ} {p : Nat} (hp : p ≤ src.size)
    (hnull : e.nullable P.nullable = true) : P.Reach src e p (some (p, [])) :=
  reach_some (Nat.le_refl p) hp (fun _ => hnull) (fun _ h => nomatch h)

/-! ## One lemma per operator

Each settles an operator from the settled runs of its parts, which `SettlesBy k` gives since the
parts' budgets are below the whole's. -/

section Step

variable {k : Nat} {m : Mode} {p : Nat}

theorem settlesAt_str (s : List Char) (hp : p ≤ src.size) :
    P.SettlesAt src m (.str s) p (k + 1) := by
  refine ⟨_, (RunsTo.str s).mono (by omega), .str, ?_⟩
  split
  · next hm =>
    refine reach_some (by omega) (matchAt_le_size hp hm) (fun h => ?_) (fun _ h => nomatch h)
    simp [Expr.nullable, List.length_eq_zero_iff.mp (by omega : s.length = 0)]
  · exact reach_none

theorem settlesAt_range (lo hi : Char) : P.SettlesAt src m (.range lo hi) p (k + 1) := by
  cases hc : src[p]? with
  | none => exact ⟨none, (RunsTo.range_none hc).mono (by omega), .rangeNone hc, reach_none⟩
  | some c =>
    have hp : p < src.size := (Array.getElem?_eq_some_iff.mp hc).1
    refine ⟨_, (RunsTo.range_some hc).mono (by omega), .rangeSome hc, ?_⟩
    split
    · exact reach_some (by omega) hp (by omega) (fun _ h => nomatch h)
    · exact reach_none

theorem settlesAt_any : P.SettlesAt src m .any p (k + 1) := by
  refine ⟨_, RunsTo.any.mono (by omega), .any, ?_⟩
  split
  · exact reach_some (by omega) (by omega) (by omega) (fun _ h => nomatch h)
  · exact reach_none

theorem settlesAt_start (hp : p ≤ src.size) : P.SettlesAt src m .start p (k + 1) := by
  refine ⟨_, RunsTo.start.mono (by omega), .start, ?_⟩
  split
  · exact reach_here hp rfl
  · exact reach_none

theorem settlesAt_finish (hp : p ≤ src.size) : P.SettlesAt src m .finish p (k + 1) := by
  refine ⟨_, RunsTo.finish.mono (by omega), .finish, ?_⟩
  split
  · exact reach_here hp rfl
  · exact reach_none

theorem settlesAt_blank (ih : P.SettlesBy src k) (hk : P.budget src .blank p ≤ k + 1)
    (hp : p ≤ src.size) : P.SettlesAt src m .blank p (k + 1) := by
  cases hm : m.atomic with
  | true =>
    exact ⟨_, (RunsTo.blank_atomic hm).mono (by omega), .blankAtomic hm, reach_here hp rfl⟩
  | false =>
    -- the blanks need at most `blankNeed`, one less than a `blank` item
    have hlt : P.needs g.blank < P.needs .blank := by
      have := P.need_blank
      simp only [needs, Expr.need] at this ⊢
      omega
    have hb := P.budget_lt_of_needs_lt src p hlt
    obtain ⟨r, hr, hy, hreach⟩ := ih m g.blank p (by omega) P.maxNeed_blank hp
    refine ⟨r, RunsTo.blank hm hr, .blank hm hy, ?_⟩
    cases r with
    | none => exact reach_none
    | some s =>
      obtain ⟨hpq, hq, -, hns⟩ := hreach
      exact reach_some hpq hq (fun _ => rfl) hns

/-- The body of a call that makes a node is read in the mode of a node's body. -/
theorem inner_mode_of_made {x : ρ} (h : m.look = .none ∧ m.atomic = false) :
    ({ m with atomic := m.atomic || (g.kind x).atomic } : Mode) =
      ⟨.none, (g.kind x).atomic⟩ := by
  obtain ⟨look, atomic⟩ := m
  obtain ⟨rfl, rfl⟩ := h
  simp

theorem settlesAt_rule (ih : P.SettlesBy src k) {x : ρ} (hk : P.budget src (.rule x) p ≤ k + 1)
    (hp : p ≤ src.size) : P.SettlesAt src m (.rule x) p (k + 1) := by
  have hb := P.budget_lt_of_needs_lt (e := .rule x) src p (P.need_body x)
  obtain ⟨r, hr, hy, hreach⟩ :=
    ih { m with atomic := m.atomic || (g.kind x).atomic } (g.body x) p
      (by omega) (P.maxNeed_body x) hp
  refine ⟨_, RunsTo.rule hr, .rule hy, ?_⟩
  cases r with
  | none => exact reach_none
  | some s =>
    obtain ⟨q, xs⟩ := s
    obtain ⟨hpq, hq, hnull, hxs⟩ := hreach
    refine reach_some hpq hq (fun h => P.nullable_of_body x (hnull h)) ?_
    split
    · next hmade =>
      intro nd hnd
      rw [List.mem_singleton.mp hnd]
      rw [inner_mode_of_made hmade.2] at hr
      exact ⟨hmade.1, hpq, hq, ⟨k, hr⟩⟩
    · exact hxs

theorem settlesAt_seq (ih : P.SettlesBy src k) {a b : Peg.Expr ρ}
    (hk : P.budget src (.seq a b) p ≤ k + 1) (hmax : P.maxNeeds (.seq a b) ≤ P.perChar)
    (hp : p ≤ src.size) : P.SettlesAt src m (.seq a b) p (k + 1) := by
  rw [maxNeeds_of_two (.inl rfl)] at hmax
  have hn : P.needs (.seq a b) =
      (if a.nullable P.nullable then max (P.needs a) (P.needs b) else P.needs a) + 1 := rfl
  have ha := P.budget_lt_of_needs_lt src p
    (show P.needs a < P.needs (.seq a b) by rw [hn]; split <;> omega)
  obtain ⟨ra, hra, hya, hreachA⟩ := ih m a p (by omega) (by omega) hp
  cases ra with
  | none => exact ⟨none, RunsTo.seq_none_left hra, .seqNoneLeft hya, reach_none⟩
  | some s =>
    obtain ⟨q, xs⟩ := s
    obtain ⟨hpq, hq, hnullA, hxs⟩ := hreachA
    -- `b` starts where `a` stopped: at `p` only when `a` is nullable, and then it is counted
    have hb : P.budget src b q ≤ k := by
      rcases Nat.lt_or_eq_of_le hpq with hlt | rfl
      · have := P.budget_lt_of_lt (e := .seq a b) hlt hq
          (Nat.le_trans (P.needs_le_maxNeeds b) (by omega))
        omega
      · have hlt : P.needs b < P.needs (.seq a b) := by rw [hn, if_pos (hnullA rfl)]; omega
        have := P.budget_lt_of_needs_lt src p hlt
        omega
    obtain ⟨rb, hrb, hyb, hreachB⟩ := ih m b q hb (by omega) hq
    cases rb with
    | none => exact ⟨none, RunsTo.seq_none_right hra hrb, .seqNoneRight hya hyb, reach_none⟩
    | some s' =>
      obtain ⟨q', ys⟩ := s'
      obtain ⟨hqq', hq', hnullB, hys⟩ := hreachB
      refine ⟨_, RunsTo.seq_some hra hrb, .seqSome hya hyb,
        reach_some (by omega) hq' (fun h => ?_) ?_⟩
      · simp [Expr.nullable, hnullA (by omega), hnullB (by omega)]
      · exact fun nd hnd => (List.mem_append.mp hnd).elim (hxs nd) (hys nd)

theorem settlesAt_alt (ih : P.SettlesBy src k) {a b : Peg.Expr ρ}
    (hk : P.budget src (.alt a b) p ≤ k + 1) (hmax : P.maxNeeds (.alt a b) ≤ P.perChar)
    (hp : p ≤ src.size) : P.SettlesAt src m (.alt a b) p (k + 1) := by
  rw [maxNeeds_of_two (.inr rfl)] at hmax
  have hn : P.needs (.alt a b) = max (P.needs a) (P.needs b) + 1 := rfl
  have ha := P.budget_lt_of_needs_lt src p
    (show P.needs a < P.needs (.alt a b) by omega)
  have hb := P.budget_lt_of_needs_lt src p
    (show P.needs b < P.needs (.alt a b) by omega)
  obtain ⟨ra, hra, hya, hreachA⟩ := ih m a p (by omega) (by omega) hp
  cases ra with
  | some s =>
    obtain ⟨q, xs⟩ := s
    obtain ⟨hpq, hq, hnullA, hxs⟩ := hreachA
    exact ⟨_, RunsTo.alt_some hra, .altSome hya,
      reach_some hpq hq (fun h => by simp [Expr.nullable, hnullA h]) hxs⟩
  | none =>
    obtain ⟨rb, hrb, hyb, hreachB⟩ := ih m b p (by omega) (by omega) hp
    refine ⟨rb, RunsTo.alt_none hra hrb, .altNone hya hyb, ?_⟩
    cases rb with
    | none => exact reach_none
    | some s =>
      obtain ⟨hpq, hq, hnullB, hys⟩ := hreachB
      exact reach_some hpq hq (fun h => by simp [Expr.nullable, hnullB h]) hys

theorem settlesAt_opt (ih : P.SettlesBy src k) {a : Peg.Expr ρ}
    (hk : P.budget src (.opt a) p ≤ k + 1) (hmax : P.maxNeeds (.opt a) ≤ P.perChar)
    (hp : p ≤ src.size) : P.SettlesAt src m (.opt a) p (k + 1) := by
  rw [maxNeeds_of_one (.inl rfl)] at hmax
  have ha := P.budget_lt_of_needs_lt src p
    (show P.needs a < P.needs (.opt a) from Nat.lt_succ_self _)
  obtain ⟨ra, hra, hya, hreachA⟩ := ih m a p (by omega) (by omega) hp
  cases ra with
  | none => exact ⟨_, RunsTo.opt_none hra, .optNone hya, reach_here hp rfl⟩
  | some s =>
    obtain ⟨q, xs⟩ := s
    obtain ⟨hpq, hq, -, hxs⟩ := hreachA
    exact ⟨_, RunsTo.opt_some hra, .optSome hya, reach_some hpq hq (fun _ => rfl) hxs⟩

theorem settlesAt_many (ih : P.SettlesBy src k) {a : Peg.Expr ρ}
    (hk : P.budget src (.many a) p ≤ k + 1) (hmax : P.maxNeeds (.many a) ≤ P.perChar)
    (hp : p ≤ src.size) : P.SettlesAt src m (.many a) p (k + 1) := by
  have hmax' := hmax
  rw [maxNeeds_of_one (.inr (.inl rfl))] at hmax'
  have ha := P.budget_lt_of_needs_lt src p
    (show P.needs a < P.needs (.many a) from Nat.lt_succ_self _)
  obtain ⟨ra, hra, hya, hreachA⟩ := ih m a p (by omega) (by omega) hp
  cases ra with
  | none => exact ⟨_, RunsTo.many_none hra, .manyNone hya, reach_here hp rfl⟩
  | some s =>
    obtain ⟨q, xs⟩ := s
    obtain ⟨hpq, hq, -, hxs⟩ := hreachA
    rcases Nat.lt_or_ge p q with hlt | hge
    · -- the rest of the repetition starts after a character: it is paid for by `perChar`
      have hrest : P.budget src (.many a) q < P.budget src (.many a) p :=
        P.budget_lt_of_lt hlt hq (by omega)
      obtain ⟨rb, hrb, hyb, hreachB⟩ := ih m (.many a) q (by omega) hmax hq
      cases rb with
      | none =>
        exact ⟨none, RunsTo.many_none_right hra hlt hrb, .manyNoneRight hya hlt hyb, reach_none⟩
      | some s' =>
        obtain ⟨q', ys⟩ := s'
        obtain ⟨hqq', hq', -, hys⟩ := hreachB
        refine ⟨_, RunsTo.many_some hra hlt hrb, .manySome hya hlt hyb,
          reach_some (by omega) hq' (fun _ => rfl) ?_⟩
        exact fun nd hnd => (List.mem_append.mp hnd).elim (hxs nd) (hys nd)
    · exact ⟨_, RunsTo.many_stop hra hge, .manyStop hya hge,
        reach_some hpq hq (fun _ => rfl) hxs⟩

theorem settlesAt_ahead (ih : P.SettlesBy src k) {a : Peg.Expr ρ}
    (hk : P.budget src (.ahead a) p ≤ k + 1) (hmax : P.maxNeeds (.ahead a) ≤ P.perChar)
    (hp : p ≤ src.size) : P.SettlesAt src m (.ahead a) p (k + 1) := by
  rw [maxNeeds_of_one (.inr (.inr (.inl rfl)))] at hmax
  have ha := P.budget_lt_of_needs_lt src p
    (show P.needs a < P.needs (.ahead a) from Nat.lt_succ_self _)
  obtain ⟨ra, hra, hya, -⟩ := ih { m with look := m.look.ahead } a p (by omega) (by omega) hp
  refine ⟨_, RunsTo.ahead hra, .ahead hya, ?_⟩
  cases ra with
  | none => exact reach_none
  | some _ => exact reach_here hp rfl

theorem settlesAt_notAhead (ih : P.SettlesBy src k) {a : Peg.Expr ρ}
    (hk : P.budget src (.notAhead a) p ≤ k + 1) (hmax : P.maxNeeds (.notAhead a) ≤ P.perChar)
    (hp : p ≤ src.size) : P.SettlesAt src m (.notAhead a) p (k + 1) := by
  rw [maxNeeds_of_one (.inr (.inr (.inr rfl)))] at hmax
  have ha := P.budget_lt_of_needs_lt src p
    (show P.needs a < P.needs (.notAhead a) from Nat.lt_succ_self _)
  obtain ⟨ra, hra, hya, -⟩ := ih { m with look := m.look.notAhead } a p (by omega) (by omega) hp
  cases ra with
  | none => exact ⟨_, RunsTo.notAhead_none hra, .notAheadNone hya, reach_here hp rfl⟩
  | some _ => exact ⟨_, RunsTo.notAhead_some hra, .notAheadSome hya, reach_none⟩

end Step

/-- Every expression of the grammar settles within its budget, from every position of the text,
in every mode. By induction on the fuel: the parts of an operator cost less than the whole. -/
theorem settlesBy : ∀ k, P.SettlesBy src k
  | 0 => fun _ e _ hk _ _ => absurd hk (by have := P.one_le_needs e; simp only [budget]; omega)
  | k + 1 => fun m e p hk hmax hp => by
    have ih := settlesBy k
    cases e with
    | str s => exact settlesAt_str s hp
    | range lo hi => exact settlesAt_range lo hi
    | any => exact settlesAt_any
    | start => exact settlesAt_start hp
    | finish => exact settlesAt_finish hp
    | blank => exact settlesAt_blank ih hk hp
    | rule x => exact settlesAt_rule ih hk hp
    | seq a b => exact settlesAt_seq ih hk hmax hp
    | alt a b => exact settlesAt_alt ih hk hmax hp
    | opt a => exact settlesAt_opt ih hk hmax hp
    | many a => exact settlesAt_many ih hk hmax hp
    | ahead a => exact settlesAt_ahead ih hk hmax hp
    | notAhead a => exact settlesAt_notAhead ih hk hmax hp

theorem maxNeeds_rule (x : ρ) : P.maxNeeds (.rule x) ≤ P.perChar := by
  unfold maxNeeds Expr.maxNeed
  simpa [Expr.need] using P.need_le x

/-- The fuel `parse` gives covers the budget of the start rule when a character costs at most what
`fuelFor` pays for one. -/
theorem budget_le_fuelFor (hC : P.perChar ≤ 8192) (x : ρ) :
    P.budget src (.rule x) 0 ≤ fuelFor src.size := by
  have hx : P.needs (.rule x) ≤ P.perChar := P.need_le x
  have hmul : P.perChar * src.size + P.perChar ≤ fuelFor src.size :=
    calc P.perChar * src.size + P.perChar = P.perChar * (src.size + 1) := (Nat.mul_succ _ _).symm
      _ ≤ 8192 * (src.size + 1) := Nat.mul_le_mul_right _ hC
      _ = fuelFor src.size := Nat.mul_comm _ _
  simp only [budget, Nat.sub_zero]
  omega

/-- A successful parse is a settled run of the start rule, and the nodes it gives are settled. -/
theorem parse_ok_settled [BEq ρ] (hC : P.perChar ≤ 8192) {x : ρ} {nodes : List (Node ρ)}
    (h : parse g x src = .ok nodes) :
    (∃ q, RunsTo g src ⟨.none, false⟩ (.rule x) 0 (some (q, nodes)) (fuelFor src.size)) ∧
      ∀ nd ∈ nodes, nd.Settled g src := by
  obtain ⟨r, hr, -, hreach⟩ :=
    P.settlesBy _ ⟨.none, false⟩ (.rule x) 0 (P.budget_le_fuelFor hC x)
      (P.maxNeeds_rule x) (Nat.zero_le _)
  unfold parse at h
  rw [hr.run_eq (Nat.le_refl _)] at h
  cases r with
  | none => simp at h
  | some s =>
    obtain ⟨q, ns⟩ := s
    obtain rfl : ns = nodes := by simpa using h
    exact ⟨⟨q, hr⟩, hreach.2.2.2⟩

/-- Under a plan, a settled run of an expression of the grammar gives what the rules give. -/
theorem yields_of_runsTo {m : Mode} {e : Peg.Expr ρ} {p k : Nat}
    {r : Option (Nat × List (Node ρ))}
    (h : RunsTo g src m e p r k) (hmax : P.maxNeeds e ≤ P.perChar) (hp : p ≤ src.size) :
    Yields g src m e p r := by
  have hs : P.SettlesBy src (P.budget src e p) := P.settlesBy _
  obtain ⟨r', hr', hy, -⟩ := hs m e p (Nat.le_refl _) hmax hp
  rw [h.unique hr']
  exact hy

end FuelPlan

/-- The body of a settled node, read from its start, gives by the rules the node's stop and
children. -/
theorem Node.Settled.yields {g : Grammar ρ} {src : Array Char} (P : FuelPlan g) {nd : Node ρ}
    (h : nd.Settled g src) :
    Yields g src ⟨.none, (g.kind nd.rule).atomic⟩ (g.body nd.rule) nd.start
      (some (nd.stop, nd.children)) := by
  obtain ⟨-, hle, hstop, k, hbody⟩ := h
  exact P.yields_of_runsTo hbody (P.maxNeed_body nd.rule) (by omega)

/-- The children of a settled node are settled, in a grammar with a fuel plan: its body, read
again, settles within its budget, and a settled run has one result. -/
theorem Node.Settled.children {g : Grammar ρ} {src : Array Char} (P : FuelPlan g) {nd : Node ρ}
    (h : nd.Settled g src) : ∀ c ∈ nd.children, c.Settled g src := by
  obtain ⟨-, hle, hstop, k, hbody⟩ := h
  have hs : P.SettlesBy src (P.budget src (g.body nd.rule) nd.start) := P.settlesBy _
  obtain ⟨r, hr, -, hreach⟩ := hs ⟨.none, (g.kind nd.rule).atomic⟩ (g.body nd.rule) nd.start
    (Nat.le_refl _) (P.maxNeed_body nd.rule) (by omega)
  rw [hr.unique hbody] at hreach
  exact hreach.2.2.2

/-- A property of every node of a tree: of the node, and of every node of its children's trees. -/
inductive Node.Every (P : Node ρ → Prop) : Node ρ → Prop
  | intro {nd : Node ρ} : P nd → (∀ c ∈ nd.children, Every P c) → Every P nd

theorem Node.Every.head {P : Node ρ → Prop} {nd : Node ρ} (h : nd.Every P) : P nd := by
  cases h with
  | intro hn _ => exact hn

theorem Node.Every.children {P : Node ρ → Prop} {nd : Node ρ} (h : nd.Every P) :
    ∀ c ∈ nd.children, c.Every P := by
  cases h with
  | intro _ hcs => exact hcs

theorem Node.Every.imp {P Q : Node ρ → Prop} (hPQ : ∀ nd, P nd → Q nd) {nd : Node ρ}
    (h : nd.Every P) : nd.Every Q := by
  induction h with
  | intro hn _ ih => exact .intro (hPQ _ hn) ih

/-- Below a settled node every node is settled, in a grammar with a fuel plan. By recursion on
the size of the tree. -/
theorem Node.Settled.every {g : Grammar ρ} {src : Array Char} (P : FuelPlan g) :
    ∀ {nd : Node ρ}, nd.Settled g src → nd.Every (Node.Settled g src)
  | ⟨x, a, b, cs⟩, h => .intro h fun c hc => Node.Settled.every P (h.children P c hc)
termination_by nd => sizeOf nd
decreasing_by
  have := List.sizeOf_lt_of_mem (show c ∈ cs from hc)
  simp only [Node.mk.sizeOf_spec]
  omega

end EcmaLite.Peg
