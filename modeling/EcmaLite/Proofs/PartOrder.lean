import EcmaLite.Proofs.BuildSpans

/-!
# Parts read in the grammar's order

The builder reads a function's name, parameters and body, and a `for` loop's clauses and body,
from whichever children have the right rules, and the syntax tree lists them in a fixed order.
The grammar lays these children in that same order (`function_inPlaces`, `for_inPlaces`): each
child's place among the parts (`Rule.place`) is no later than the place of any child after it
(`InPlaces`). So no part comes from a child after one of a later part (`Build.funcParts_none`,
`Build.forParts_none`), and each part's tree lies after the one before it
(`Build.funcParts_placed`, `Build.forParts_placed`).
-/

namespace EcmaLite

open Peg SpanTree

variable {src : Source}

/-- Where a child goes among three parts that a node reads in the order `a`, `b`, `c`, every
other child after them: the name, parameters and body of a function, or the clauses of a `for`
loop before its body. -/
def Rule.place (a b c r : Rule) : Nat :=
  if r = a then 0 else if r = b then 1 else if r = c then 2 else 3

/-- Children in the order of their places among the parts `a`, `b`, `c`. -/
def InPlaces (a b c : Rule) (cs : List (Node Rule)) : Prop :=
  cs.Pairwise fun x y => Rule.place a b c x.rule ≤ Rule.place a b c y.rule

theorem Rule.place_of_ne {a b c r : Rule} (ha : r ≠ a) (hb : r ≠ b) (hc : r ≠ c) :
    Rule.place a b c r = 3 := by
  simp [Rule.place, ha, hb, hc]

namespace InPlaces

variable {a b c : Rule} {x : Node Rule} {xs : List (Node Rule)}

theorem tail (h : InPlaces a b c (x :: xs)) : InPlaces a b c xs := List.Pairwise.of_cons h

/-- No child after `x` has a rule whose place comes before `x`'s. -/
theorem ne_later (r : Rule) (h : InPlaces a b c (x :: xs))
    (hr : Rule.place a b c r < Rule.place a b c x.rule) : ∀ y ∈ xs, y.rule ≠ r := by
  intro y hy hyr
  have hle := (List.pairwise_cons.mp h).1 y hy
  rw [hyr] at hle
  omega

end InPlaces

/-- A function's name and parameters come from `identifier` and `formal_parameters` children:
without such children it has none. -/
theorem Build.funcParts_none {cs : List (Node Rule)} :
    ∀ {name : Option Ident} {params : List Ident} {body : Option (Span × List Stmt)},
      Build.funcParts src cs = some (name, params, body) →
      ((∀ c ∈ cs, c.rule ≠ .identifier) → name = none) ∧
        ((∀ c ∈ cs, c.rule ≠ .formalParameters) → params = []) := by
  induction cs with
  | nil =>
    intro name params body h
    simp only [Build.funcParts, Option.some.injEq, Prod.mk.injEq] at h
    obtain ⟨rfl, rfl, rfl⟩ := h
    exact ⟨fun _ => rfl, fun _ => rfl⟩
  | cons n rest ih =>
    intro name params body h
    have hrest : ∀ {r : Rule}, (∀ c ∈ n :: rest, c.rule ≠ r) → ∀ c ∈ rest, c.rule ≠ r :=
      fun hno c hc => hno c (List.mem_cons_of_mem _ hc)
    unfold Build.funcParts at h
    split at h
    · next heq => cases heq
    · next _ _ _ _ rest' heq =>
      obtain ⟨rfl, rfl⟩ := List.cons.inj heq
      obtain ⟨⟨name', params', body'⟩, hparts, h⟩ := Option.bind_eq_some_iff.mp h
      simp only [Option.some.injEq, Prod.mk.injEq] at h
      obtain ⟨rfl, rfl, rfl⟩ := h
      exact ⟨fun hno => (hno _ List.mem_cons_self rfl).elim,
        fun hno => (ih hparts).2 (hrest hno)⟩
    · next _ _ _ ps rest' heq =>
      obtain ⟨rfl, rfl⟩ := List.cons.inj heq
      obtain ⟨⟨name', params', body'⟩, hparts, h⟩ := Option.bind_eq_some_iff.mp h
      simp only [Option.some.injEq, Prod.mk.injEq] at h
      obtain ⟨rfl, rfl, rfl⟩ := h
      exact ⟨fun hno => (ih hparts).1 (hrest hno),
        fun hno => (hno _ List.mem_cons_self rfl).elim⟩
    · next _ a b ss rest' heq =>
      obtain ⟨rfl, rfl⟩ := List.cons.inj heq
      obtain ⟨⟨name', params', body'⟩, hparts, h⟩ := Option.bind_eq_some_iff.mp h
      obtain ⟨stmts, -, h⟩ := Option.bind_eq_some_iff.mp h
      simp only [Option.some.injEq, Prod.mk.injEq] at h
      obtain ⟨rfl, rfl, rfl⟩ := h
      exact ⟨fun hno => (ih hparts).1 (hrest hno), fun hno => (ih hparts).2 (hrest hno)⟩
    · simp at h

/-- A `for` loop's clauses come from `for_init`, `for_test` and `for_update` children: without
such children it has none. -/
theorem Build.forParts_none {cs : List (Node Rule)} :
    ∀ {init : Option ForInit} {test update : Option Expr} {body : Option Stmt},
      Build.forParts src cs = some (init, test, update, body) →
      ((∀ c ∈ cs, c.rule ≠ .forInit) → init = none) ∧
        ((∀ c ∈ cs, c.rule ≠ .forTest) → test = none) ∧
        ((∀ c ∈ cs, c.rule ≠ .forUpdate) → update = none) := by
  induction cs with
  | nil =>
    intro init test update body h
    simp only [Build.forParts, Option.some.injEq, Prod.mk.injEq] at h
    obtain ⟨rfl, rfl, rfl, rfl⟩ := h
    exact ⟨fun _ => rfl, fun _ => rfl, fun _ => rfl⟩
  | cons n rest ih =>
    intro init test update body h
    have hrest : ∀ {r : Rule}, (∀ c ∈ n :: rest, c.rule ≠ r) → ∀ c ∈ rest, c.rule ≠ r :=
      fun hno c hc => hno c (List.mem_cons_of_mem _ hc)
    unfold Build.forParts at h
    split at h
    · next heq => cases heq
    · next _ _ _ ks rest' heq =>
      obtain ⟨rfl, rfl⟩ := List.cons.inj heq
      obtain ⟨⟨init', test', update', body'⟩, hparts, h⟩ := Option.bind_eq_some_iff.mp h
      dsimp only at h
      have hsame : test = test' ∧ update = update' := by
        split at h
        any_goals
          obtain ⟨_, -, h⟩ := Option.bind_eq_some_iff.mp h
          obtain ⟨_, ⟨⟩, h⟩ := Option.bind_eq_some_iff.mp h
          simp only [Option.some.injEq, Prod.mk.injEq] at h
          exact ⟨h.2.1.symm, h.2.2.1.symm⟩
        simp at h
      obtain ⟨rfl, rfl⟩ := hsame
      exact ⟨fun hno => (hno _ List.mem_cons_self rfl).elim,
        fun hno => (ih hparts).2.1 (hrest hno), fun hno => (ih hparts).2.2 (hrest hno)⟩
    · next _ _ _ ks rest' heq =>
      obtain ⟨rfl, rfl⟩ := List.cons.inj heq
      obtain ⟨⟨init', test', update', body'⟩, hparts, h⟩ := Option.bind_eq_some_iff.mp h
      dsimp only at h
      split at h
      · obtain ⟨x, -, h⟩ := Option.bind_eq_some_iff.mp h
        simp only [Option.some.injEq, Prod.mk.injEq] at h
        obtain ⟨rfl, rfl, rfl, rfl⟩ := h
        exact ⟨fun hno => (ih hparts).1 (hrest hno), fun hno => (hno _ List.mem_cons_self rfl).elim,
          fun hno => (ih hparts).2.2 (hrest hno)⟩
      · cases h
    · next _ _ _ ks rest' heq =>
      obtain ⟨rfl, rfl⟩ := List.cons.inj heq
      obtain ⟨⟨init', test', update', body'⟩, hparts, h⟩ := Option.bind_eq_some_iff.mp h
      dsimp only at h
      split at h
      · obtain ⟨x, -, h⟩ := Option.bind_eq_some_iff.mp h
        simp only [Option.some.injEq, Prod.mk.injEq] at h
        obtain ⟨rfl, rfl, rfl, rfl⟩ := h
        exact ⟨fun hno => (ih hparts).1 (hrest hno), fun hno => (ih hparts).2.1 (hrest hno),
          fun hno => (hno _ List.mem_cons_self rfl).elim⟩
      · cases h
    · next _ s rest' _ _ _ heq =>
      obtain ⟨rfl, rfl⟩ := List.cons.inj heq
      obtain ⟨⟨init', test', update', body'⟩, hparts, h⟩ := Option.bind_eq_some_iff.mp h
      dsimp only at h
      obtain ⟨x, -, h⟩ := Option.bind_eq_some_iff.mp h
      simp only [Option.some.injEq, Prod.mk.injEq] at h
      obtain ⟨rfl, rfl, rfl, rfl⟩ := h
      exact ⟨fun hno => (ih hparts).1 (hrest hno), fun hno => (ih hparts).2.1 (hrest hno),
        fun hno => (ih hparts).2.2 (hrest hno)⟩

/-- A node that is no node of rule `r` has another rule. -/
theorem Peg.Node.rule_ne {n : Node Rule} {r : Rule} (h : ∀ a b cs, n = ⟨r, a, b, cs⟩ → False) :
    n.rule ≠ r := by
  obtain ⟨r', a, b, cs⟩ := n
  rintro rfl
  exact h a b cs rfl

section Parts

variable (hsrc : src.Ordered) {q : Nat}
include hsrc

/-- The trees of a function's name, parameters and body lie one after the other among children
in the order name, parameters, body. By induction on the children: each part's tree lies inside
its child, and the parts the children after it give come later in the tree. -/
theorem Build.funcParts_placed {cs : List (Node Rule)} :
    ∀ {p : Nat} {name : Option Ident} {params : List Ident} {body : Option (Span × List Stmt)},
      Span.Laid p q (cs.map Node.extent) → q ≤ src.chars.size →
      (∀ c ∈ cs, c.Every (SpansFrom src)) → InPlaces .identifier .formalParameters .functionBody cs →
      Build.funcParts src cs = some (name, params, body) →
      Placed (src.byte p) (src.byte q) (name.toList.map Ident.spanTree ++
        params.map Ident.spanTree ++
        (body.map fun b => (⟨b.1, Stmt.spanTreesOfList b.2⟩ : SpanTree)).toList) := by
  induction cs with
  | nil =>
    intro p name params body hl hq _ _ h
    simp only [Build.funcParts, Option.some.injEq, Prod.mk.injEq] at h
    obtain ⟨rfl, rfl, rfl⟩ := h
    exact Placed.nil (hsrc hl hq)
  | cons n rest ih =>
    intro p name params body hl hq hcs hin h
    have hrest : ∀ c ∈ rest, c.Every (SpansFrom src) :=
      fun c hc => hcs c (List.mem_cons_of_mem _ hc)
    have hn := hcs n List.mem_cons_self
    have hnq : n.stop ≤ src.chars.size := Nat.le_trans hl.2.2.le hq
    unfold Build.funcParts at h
    split at h
    · next heq => cases heq
    · next _ _ _ _ rest' heq =>
      obtain ⟨rfl, rfl⟩ := List.cons.inj heq
      obtain ⟨⟨name', params', body'⟩, hparts, h⟩ := Option.bind_eq_some_iff.mp h
      simp only [Option.some.injEq, Prod.mk.injEq] at h
      obtain ⟨rfl, rfl, rfl⟩ := h
      have hall := ih hl.2.2 hq hrest hin.tail hparts
      simp only [List.append_assoc] at hall ⊢
      have hafter := hall.sublist (List.sublist_append_right (name'.toList.map Ident.spanTree) _)
      exact Placed.cons_child hsrc hl hq (Placed.leaf hsrc hl.2.1 hnq) hafter
    · next _ a b ps rest' heq =>
      -- the parameters: no name comes after them
      obtain ⟨rfl, rfl⟩ := List.cons.inj heq
      obtain ⟨⟨name', params', body'⟩, hparts, h⟩ := Option.bind_eq_some_iff.mp h
      simp only [Option.some.injEq, Prod.mk.injEq] at h
      obtain ⟨rfl, rfl, rfl⟩ := h
      have hname : name' = none :=
        (Build.funcParts_none hparts).1 (hin.ne_later _ (by simp [Rule.place]))
      subst hname
      have hall := ih hl.2.2 hq hrest hin.tail hparts
      simp only [Option.toList_none, List.map_nil, List.nil_append, List.map_map] at hall ⊢
      have hafter := hall.sublist (List.sublist_append_right _ _)
      exact Placed.cons_child hsrc hl hq (Placed.idents hsrc hn.head.1.laid hnq) hafter
    · next _ a b ss rest' heq =>
      obtain ⟨rfl, rfl⟩ := List.cons.inj heq
      obtain ⟨⟨name', params', body'⟩, hparts, h⟩ := Option.bind_eq_some_iff.mp h
      obtain ⟨stmts, hstmts, h⟩ := Option.bind_eq_some_iff.mp h
      simp only [Option.some.injEq, Prod.mk.injEq] at h
      obtain ⟨rfl, rfl, rfl⟩ := h
      obtain ⟨hname, hparams⟩ := Build.funcParts_none hparts
      rw [hname (hin.ne_later _ (by simp [Rule.place])),
        hparams (hin.ne_later _ (by simp [Rule.place]))]
      have hbody : Placed (src.byte a) (src.byte b)
          [⟨src.span a b, Stmt.spanTreesOfList stmts⟩] :=
        Placed.over (Build.stmts_placed hsrc hn.head.1.laid hnq hn.children hstmts)
      simp only [Option.toList_none, List.map_nil, List.nil_append, Option.map_some,
        Option.toList_some]
      exact Placed.of_child hsrc hl hq List.mem_cons_self hbody
    · simp at h

/-- A function whose parts come from children in the grammar's order lies inside its node. -/
theorem Build.func?_placed {cs : List (Node Rule)} {a : Nat} {parts} {f : Func}
    (hl : Span.Laid a q (cs.map Node.extent)) (hq : q ≤ src.chars.size)
    (hcs : ∀ c ∈ cs, c.Every (SpansFrom src))
    (hin : InPlaces .identifier .formalParameters .functionBody cs)
    (hparts : Build.funcParts src cs = some parts) (hf : Build.func? (src.span a q) parts = some f) :
    Placed (src.byte a) (src.byte q) [f.spanTree] := by
  obtain ⟨name, params, body⟩ := parts
  rcases body with _ | ⟨sp, ss⟩
  · simp [Build.func?] at hf
  · simp only [Build.func?, Option.some.injEq] at hf
    subst hf
    have h := Build.funcParts_placed hsrc hl hq hcs hin hparts
    simp only [Option.map_some, Option.toList_some] at h
    simp only [Func.spanTree]
    exact Placed.over h

/-- The trees of a `for` loop's clauses and body lie one after the other among children in the
order `for_init`, `for_test`, `for_update`, body, by the same induction. -/
theorem Build.forParts_placed {cs : List (Node Rule)} :
    ∀ {p : Nat} {init : Option ForInit} {test update : Option Expr} {body : Option Stmt},
      Span.Laid p q (cs.map Node.extent) → q ≤ src.chars.size →
      (∀ c ∈ cs, c.Every (SpansFrom src)) → InPlaces .forInit .forTest .forUpdate cs →
      Build.forParts src cs = some (init, test, update, body) →
      Placed (src.byte p) (src.byte q) (ForInit.spanTreesOfOption init ++
        Expr.spanTreesOfOption test ++ Expr.spanTreesOfOption update ++
        Stmt.spanTreesOfOption body) := by
  induction cs with
  | nil =>
    intro p init test update body hl hq _ _ h
    simp only [Build.forParts, Option.some.injEq, Prod.mk.injEq] at h
    obtain ⟨rfl, rfl, rfl, rfl⟩ := h
    exact Placed.nil (hsrc hl hq)
  | cons n rest ih =>
    intro p init test update body hl hq hcs hin h
    have hrest : ∀ c ∈ rest, c.Every (SpansFrom src) :=
      fun c hc => hcs c (List.mem_cons_of_mem _ hc)
    have hn := hcs n List.mem_cons_self
    have hnq : n.stop ≤ src.chars.size := Nat.le_trans hl.2.2.le hq
    have honly : ∀ {e : Node Rule} {x : Expr}, n.children = [e] → Build.expr src e = some x →
        Placed (src.byte n.start) (src.byte n.stop) [x.spanTree] := by
      intro e x hch hx
      have he : e ∈ n.children := hch ▸ List.mem_singleton_self _
      exact Placed.of_child hsrc hn.head.1.laid hnq he ((hn.children e he).head.2.1 x hx)
    simp only [List.append_assoc]
    unfold Build.forParts at h
    split at h
    · next heq => cases heq
    · next _ _ _ ks rest' heq =>
      obtain ⟨rfl, rfl⟩ := List.cons.inj heq
      obtain ⟨⟨init', test', update', body'⟩, hparts, h⟩ := Option.bind_eq_some_iff.mp h
      have hall := ih hl.2.2 hq hrest hin.tail hparts
      simp only [List.append_assoc] at hall
      have hafter := hall.sublist (List.sublist_append_right (ForInit.spanTreesOfOption init') _)
      dsimp only at h
      split at h
      · next a b ds _ =>
        obtain ⟨vs, hvs, h⟩ := Option.bind_eq_some_iff.mp h
        obtain ⟨_, ⟨⟩, h⟩ := Option.bind_eq_some_iff.mp h
        simp only [Option.some.injEq, Prod.mk.injEq] at h
        obtain ⟨rfl, rfl, rfl, rfl⟩ := h
        have hx := hn.children _ (List.mem_singleton_self _)
        have hvars : Placed (src.byte a) (src.byte b)
            [⟨src.span a b, Declarator.spanTreesOfList vs⟩] :=
          Placed.over
            (Build.declarators_placed hsrc hx.head.1.laid hx.head.1.stop_le hx.children hvs)
        exact Placed.cons_child hsrc hl hq
          (Placed.of_child hsrc hn.head.1.laid hnq (List.mem_singleton_self _) hvars) hafter
      · obtain ⟨x, hx, h⟩ := Option.bind_eq_some_iff.mp h
        obtain ⟨_, ⟨⟩, h⟩ := Option.bind_eq_some_iff.mp h
        simp only [Option.some.injEq, Prod.mk.injEq] at h
        obtain ⟨rfl, rfl, rfl, rfl⟩ := h
        exact Placed.cons_child hsrc hl hq (honly rfl hx) hafter
      · simp at h
    · next _ _ _ ks rest' heq =>
      -- the test: no first clause comes after it
      obtain ⟨rfl, rfl⟩ := List.cons.inj heq
      obtain ⟨⟨init', test', update', body'⟩, hparts, h⟩ := Option.bind_eq_some_iff.mp h
      have hinit : init' = none :=
        (Build.forParts_none hparts).1 (hin.ne_later _ (by simp [Rule.place]))
      subst hinit
      have hall := ih hl.2.2 hq hrest hin.tail hparts
      simp only [ForInit.spanTreesOfOption, List.nil_append, List.append_assoc] at hall
      have hafter := hall.sublist (List.sublist_append_right (Expr.spanTreesOfOption test') _)
      dsimp only at h
      split at h
      · obtain ⟨x, hx, h⟩ := Option.bind_eq_some_iff.mp h
        simp only [Option.some.injEq, Prod.mk.injEq] at h
        obtain ⟨rfl, rfl, rfl, rfl⟩ := h
        simp only [ForInit.spanTreesOfOption, List.nil_append]
        exact Placed.cons_child hsrc hl hq (honly rfl hx) hafter
      · cases h
    · next _ _ _ ks rest' heq =>
      obtain ⟨rfl, rfl⟩ := List.cons.inj heq
      obtain ⟨⟨init', test', update', body'⟩, hparts, h⟩ := Option.bind_eq_some_iff.mp h
      have hnone := Build.forParts_none hparts
      have hinit : init' = none := hnone.1 (hin.ne_later _ (by simp [Rule.place]))
      have htest : test' = none := hnone.2.1 (hin.ne_later _ (by simp [Rule.place]))
      subst hinit htest
      have hall := ih hl.2.2 hq hrest hin.tail hparts
      simp only [ForInit.spanTreesOfOption, Expr.spanTreesOfOption, List.nil_append] at hall
      have hafter := hall.sublist (List.sublist_append_right (Expr.spanTreesOfOption update') _)
      dsimp only at h
      split at h
      · obtain ⟨x, hx, h⟩ := Option.bind_eq_some_iff.mp h
        simp only [Option.some.injEq, Prod.mk.injEq] at h
        obtain ⟨rfl, rfl, rfl, rfl⟩ := h
        simp only [ForInit.spanTreesOfOption, Expr.spanTreesOfOption, List.nil_append]
        exact Placed.cons_child hsrc hl hq (honly rfl hx) hafter
      · cases h
    · next _ s rest' h1 h2 h3 heq =>
      -- any other child is the body: no clause comes after it
      obtain ⟨rfl, rfl⟩ := List.cons.inj heq
      obtain ⟨⟨init', test', update', body'⟩, hparts, h⟩ := Option.bind_eq_some_iff.mp h
      dsimp only at h
      obtain ⟨st, hst, h⟩ := Option.bind_eq_some_iff.mp h
      simp only [Option.some.injEq, Prod.mk.injEq] at h
      obtain ⟨rfl, rfl, rfl, rfl⟩ := h
      have hplace : Rule.place .forInit .forTest .forUpdate n.rule = 3 :=
        Rule.place_of_ne (Node.rule_ne h1) (Node.rule_ne h2) (Node.rule_ne h3)
      have hnone := Build.forParts_none hparts
      rw [hnone.1 (hin.ne_later _ (by rw [hplace]; decide)),
        hnone.2.1 (hin.ne_later _ (by rw [hplace]; decide)),
        hnone.2.2 (hin.ne_later _ (by rw [hplace]; decide))]
      simp only [ForInit.spanTreesOfOption, Expr.spanTreesOfOption, Stmt.spanTreesOfOption,
        List.nil_append]
      exact Placed.of_child hsrc hl hq List.mem_cons_self (hn.head.2.2 st hst)

end Parts

/-- The children of a settled function node: its name if it has one, then its
`formal_parameters` node and its `function_body` node. -/
theorem function_inPlaces {nd : Node Rule} (h : nd.Settled scriptGrammar src.chars)
    (hr : nd.rule = .functionExpression ∨ nd.rule = .functionDeclaration) :
    InPlaces .identifier .formalParameters .functionBody nd.children := by
  have hg := h.gives (by rcases hr with hr | hr <;> rw [hr] <;> rfl)
  obtain ⟨ids, ps, body, hcs, hids, hps, hbody⟩ :
      ∃ ids ps body, nd.children = ids ++ [ps, body] ∧ (∀ c ∈ ids, c.rule = .identifier) ∧
        ps.rule = .formalParameters ∧ body.rule = .functionBody := by
    rcases hr with hr | hr <;> rw [hr] at hg
    · exact gives_function (gives_opt_each (gives_rule_each rfl)) hg
    · exact gives_function (gives_rule_each rfl) hg
  have hzero : ∀ c ∈ ids, Rule.place .identifier .formalParameters .functionBody c.rule = 0 := by
    intro c hc
    rw [hids c hc]
    rfl
  rw [hcs]
  refine List.pairwise_append.mpr ⟨List.pairwise_of_forall_mem_list fun x hx y hy => ?_, ?_,
    fun x hx y _ => ?_⟩
  · rw [hzero x hx, hzero y hy]
  · simp [hps, hbody, Rule.place]
  · rw [hzero x hx]
    exact Nat.zero_le _

/-- Children at one place, then children in order at that place or later, are in order. -/
theorem InPlaces.append_block {a b c : Rule} {xs ys : List (Node Rule)} (k : Nat)
    (hx : ∀ x ∈ xs, Rule.place a b c x.rule = k) (hy : ∀ y ∈ ys, k ≤ Rule.place a b c y.rule)
    (hys : InPlaces a b c ys) : InPlaces a b c (xs ++ ys) := by
  refine List.pairwise_append.mpr ⟨List.pairwise_of_forall_mem_list fun x hx' y hy' => ?_, hys,
    fun x hx' y hy' => ?_⟩
  · rw [hx x hx', hx y hy']
  · rw [hx x hx']
    exact hy y hy'

/-- The children of a settled `for` node: its `for_init`, `for_test` and `for_update` nodes for
the clauses it has, then the body's statement node. -/
theorem for_inPlaces {nd : Node Rule} (h : nd.Settled scriptGrammar src.chars)
    (hr : nd.rule = .forStatement) : InPlaces .forInit .forTest .forUpdate nd.children := by
  have hg := h.gives (by rw [hr]; rfl)
  rw [hr] at hg
  simp only [Rule.body, Peg.Expr.chain] at hg
  obtain ⟨ws, r1, hcs, hw, h1⟩ := gives_andThen hg
  obtain ⟨l1, r2, rfl, hl1, h2⟩ := gives_andThen h1
  obtain ⟨is, r3, rfl, his, h3⟩ := gives_andThen h2
  obtain ⟨l2, r4, rfl, hl2, h4⟩ := gives_andThen h3
  obtain ⟨ts, r5, rfl, hts, h5⟩ := gives_andThen h4
  obtain ⟨l3, r6, rfl, hl3, h6⟩ := gives_andThen h5
  obtain ⟨us, r7, rfl, hus, h7⟩ := gives_andThen h6
  obtain ⟨l4, ys, rfl, hl4, hys⟩ := gives_andThen h7
  obtain ⟨y, rfl, hy⟩ := gives_statement hys
  rw [gives_word hw, gives_lit hl1, gives_lit hl2, gives_lit hl3, gives_lit hl4] at hcs
  simp only [List.nil_append] at hcs
  rw [hcs]
  have hne : ∀ r : Rule, r.isStatement = false → y.rule ≠ r := by
    intro r hr hyr
    rw [hyr, hr] at hy
    cases hy
  have hy3 : Rule.place .forInit .forTest .forUpdate y.rule = 3 :=
    Rule.place_of_ne (hne _ rfl) (hne _ rfl) (hne _ rfl)
  have hplace : ∀ {r : Rule} {cs : List (Node Rule)}, (∀ c ∈ cs, c.rule = r) →
      ∀ c ∈ cs, Rule.place .forInit .forTest .forUpdate c.rule =
        Rule.place .forInit .forTest .forUpdate r :=
    fun hcs c hc => by rw [hcs c hc]
  refine InPlaces.append_block 0 (hplace (gives_opt_each (gives_rule_each rfl) his))
    (fun _ _ => Nat.zero_le _) ?_
  refine InPlaces.append_block 1 (hplace (gives_opt_each (gives_rule_each rfl) hts)) ?_ ?_
  · simp only [List.mem_append, List.mem_singleton]
    rintro z (hz | rfl)
    · rw [hplace (gives_opt_each (gives_rule_each rfl) hus) z hz]
      decide
    · rw [hy3]
      decide
  refine InPlaces.append_block 2 (hplace (gives_opt_each (gives_rule_each rfl) hus)) ?_
    (List.pairwise_singleton _ _)
  simp only [List.mem_singleton]
  rintro z rfl
  rw [hy3]
  decide

end EcmaLite
