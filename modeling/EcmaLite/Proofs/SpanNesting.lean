import EcmaLite.Proofs.PartOrder

/-!
# The spans of a syntax tree nest

This module shows that the spans of every script that reads are well nested
(`parsed_spans_nest`):

* for a settled parse-tree node whose descendants the builder reads with nested trees inside
  their bytes, the builder reads the node itself with a nested tree inside its bytes
  (`Build.expr_placed`, `Build.stmt_placed`). So it reads every node of a parse that way
  (`Peg.Node.Every.spansFrom`), and a script's tree of spans is nested inside its whole text
  (`Program.spanTree_nested`);
* the links of a binary, logical, member or call chain all start where the chain's node starts
  (`Build.expr_chain_links`).
-/

namespace EcmaLite

open Peg SpanTree

variable {src : Source}

/-! ## The builder puts every node's tree inside the node -/

section Nodes

variable (hsrc : src.Ordered) {n : Node Rule} (hn : n.Settled scriptGrammar src.chars)
  (hcs : ∀ c ∈ n.children, c.Every (SpansFrom src))
include hsrc hn hcs

/-- The expression a node stands for has its tree inside the node's bytes: either a tree of a
child, or a node over the node's own span with its children's trees inside. -/
theorem Build.expr_placed {e : Expr} (h : Build.expr src n = some e) :
    Placed (src.byte n.start) (src.byte n.stop) [e.spanTree] := by
  have hl := hn.laid
  have hq := hn.stop_le
  have hc : ∀ c ∈ n.children, ∀ e, Build.expr src c = some e →
      Placed (src.byte c.start) (src.byte c.stop) [e.spanTree] :=
    fun c hc => (hcs c hc).head.2.1
  have hleaf : Placed (src.byte n.start) (src.byte n.stop) [⟨src.span n.start n.stop, []⟩] :=
    Placed.leaf hsrc hn.start_le hq
  unfold Build.expr at h
  split at h
  · -- a sequence, or its only expression
    obtain ⟨items, hitems, h⟩ := Option.bind_eq_some_iff.mp h
    have hplaced := Build.exprs_placed hsrc hl hq hcs hitems
    split at h <;> cases h
    · exact hplaced
    · exact Placed.over hplaced
  · split at h
    · exact Placed.of_child hsrc hl hq (by simp) (hc _ (by simp) e h)
    · obtain ⟨o, -, h⟩ := Option.bind_eq_some_iff.mp h
      obtain ⟨target, htarget, h⟩ := Option.bind_eq_some_iff.mp h
      obtain ⟨value, hvalue, h⟩ := Option.bind_eq_some_iff.mp h
      cases h
      exact Placed.over (Placed.cons_child hsrc hl hq (hc _ (by simp) _ htarget)
        (Placed.of_child hsrc hl.2.2 hq (by simp) (hc _ (by simp) _ hvalue)))
    · cases h
  · split at h
    · exact Placed.of_child hsrc hl hq (by simp) (hc _ (by simp) e h)
    · obtain ⟨test, htest, h⟩ := Option.bind_eq_some_iff.mp h
      obtain ⟨yes, hyes, h⟩ := Option.bind_eq_some_iff.mp h
      obtain ⟨no, hno, h⟩ := Option.bind_eq_some_iff.mp h
      cases h
      exact Placed.over (Placed.cons_child hsrc hl hq (hc _ (by simp) _ htest)
        (Placed.cons_child hsrc hl.2.2 hq (hc _ (by simp) _ hyes)
          (Placed.of_child hsrc hl.2.2.2.2 hq (by simp) (hc _ (by simp) _ hno))))
    · cases h
  all_goals first
    | -- `||` and `&&` chains
      split at h
      · obtain ⟨left, hleft, h⟩ := Option.bind_eq_some_iff.mp h
        exact Build.logicalChain_placed hsrc _ _ hl.2.2 hq
          (fun c hc' => hcs c (List.mem_cons_of_mem _ hc'))
          (Placed.before hsrc hl hq (hc _ List.mem_cons_self left hleft)) h
      · cases h
    | exact Build.binary_placed hsrc hl hq hcs h
    | exact Build.prefixed_placed hsrc _ hl hq hcs h
    | exact Build.suffixed_placed hsrc hl hq hcs h
    | skip
  · split at h
    · exact Placed.of_child hsrc hl hq (by simp) (hc _ (by simp) e h)
    · obtain ⟨u, -, h⟩ := Option.bind_eq_some_iff.mp h
      obtain ⟨arg, harg, h⟩ := Option.bind_eq_some_iff.mp h
      cases h
      exact Placed.over (Placed.of_child hsrc hl hq (by simp) (hc _ (by simp) _ harg))
    · cases h
  · -- `new` with arguments: these are the children of the `arguments` node
    split at h
    · obtain ⟨callee, hcallee, h⟩ := Option.bind_eq_some_iff.mp h
      obtain ⟨args, hargs, h⟩ := Option.bind_eq_some_iff.mp h
      cases h
      have hx := hcs _ (List.mem_cons_of_mem _ (List.mem_singleton_self _))
      exact Placed.over (Placed.cons_child hsrc hl hq (hc _ (by simp) _ hcallee)
        (Placed.of_child hsrc hl.2.2 hq (List.mem_singleton_self _)
          (Build.exprs_placed hsrc hx.head.1.laid hx.head.1.stop_le hx.children hargs)))
    · cases h
  · split at h
    · obtain ⟨callee, hcallee, h⟩ := Option.bind_eq_some_iff.mp h
      cases h
      exact Placed.over (Placed.of_child hsrc hl hq (by simp) (hc _ (by simp) _ hcallee))
    · cases h
  · cases h
    exact hleaf
  · obtain ⟨parts, hparts, h⟩ := Option.bind_eq_some_iff.mp h
    obtain ⟨f, hf, h⟩ := Option.bind_eq_some_iff.mp h
    cases h
    exact Build.func?_placed hsrc hl hq hcs (function_inPlaces hn (.inl rfl)) hparts hf
  · cases h
    exact hleaf
  · obtain ⟨es, hes, h⟩ := Option.bind_eq_some_iff.mp h
    cases h
    exact Placed.over (Build.exprs_placed hsrc hl hq hcs hes)
  · obtain ⟨ps, hps, h⟩ := Option.bind_eq_some_iff.mp h
    cases h
    exact Placed.over (Build.props_placed hsrc hl hq hcs hps)
  · obtain ⟨l, -, rfl⟩ := Option.map_eq_some_iff.mp h
    exact hleaf

/-- The statement a node stands for has its tree inside the node's bytes. -/
theorem Build.stmt_placed {s : Stmt} (h : Build.stmt src n = some s) :
    Placed (src.byte n.start) (src.byte n.stop) [s.spanTree] := by
  have hl := hn.laid
  have hq := hn.stop_le
  have hc : ∀ c ∈ n.children, ∀ e, Build.expr src c = some e →
      Placed (src.byte c.start) (src.byte c.stop) [e.spanTree] :=
    fun c hc => (hcs c hc).head.2.1
  have hs : ∀ c ∈ n.children, ∀ s, Build.stmt src c = some s →
      Placed (src.byte c.start) (src.byte c.stop) [s.spanTree] :=
    fun c hc => (hcs c hc).head.2.2
  have hleaf : Placed (src.byte n.start) (src.byte n.stop) [⟨src.span n.start n.stop, []⟩] :=
    Placed.leaf hsrc hn.start_le hq
  unfold Build.stmt at h
  split at h
  · obtain ⟨ss, hss, h⟩ := Option.bind_eq_some_iff.mp h
    cases h
    exact Placed.over (Build.stmts_placed hsrc hl hq hcs hss)
  · -- the declarations are the children of the only child, a `variable_declaration_list` node,
    -- whose span the statement takes
    split at h
    · obtain ⟨ds, hds, h⟩ := Option.bind_eq_some_iff.mp h
      cases h
      have hx := hcs _ (List.mem_singleton_self _)
      exact Placed.of_child hsrc hl hq (List.mem_singleton_self _)
        (Placed.over
          (Build.declarators_placed hsrc hx.head.1.laid hx.head.1.stop_le hx.children hds))
    · cases h
  · cases h
    exact hleaf
  · split at h
    · obtain ⟨test, htest, h⟩ := Option.bind_eq_some_iff.mp h
      obtain ⟨yes, hyes, h⟩ := Option.bind_eq_some_iff.mp h
      cases h
      exact Placed.over (Placed.cons_child hsrc hl hq (hc _ (by simp) _ htest)
        (Placed.of_child hsrc hl.2.2 hq (by simp) (hs _ (by simp) _ hyes)))
    · obtain ⟨test, htest, h⟩ := Option.bind_eq_some_iff.mp h
      obtain ⟨yes, hyes, h⟩ := Option.bind_eq_some_iff.mp h
      obtain ⟨no, hno, h⟩ := Option.bind_eq_some_iff.mp h
      cases h
      exact Placed.over (Placed.cons_child hsrc hl hq (hc _ (by simp) _ htest)
        (Placed.cons_child hsrc hl.2.2 hq (hs _ (by simp) _ hyes)
          (Placed.of_child hsrc hl.2.2.2.2 hq (by simp) (hs _ (by simp) _ hno))))
    · cases h
  · split at h
    · obtain ⟨test, htest, h⟩ := Option.bind_eq_some_iff.mp h
      obtain ⟨body, hbody, h⟩ := Option.bind_eq_some_iff.mp h
      cases h
      exact Placed.over (Placed.cons_child hsrc hl hq (hc _ (by simp) _ htest)
        (Placed.of_child hsrc hl.2.2 hq (by simp) (hs _ (by simp) _ hbody)))
    · cases h
  · obtain ⟨⟨init, test, update, body⟩, hparts, h⟩ := Option.bind_eq_some_iff.mp h
    obtain ⟨b, rfl, h⟩ := Option.bind_eq_some_iff.mp h
    cases h
    exact Placed.over (Build.forParts_placed hsrc hl hq hcs (for_inPlaces hn rfl) hparts)
  · cases h
    exact hleaf
  · cases h
    exact hleaf
  · split at h
    · cases h
      exact hleaf
    · obtain ⟨arg, harg, h⟩ := Option.bind_eq_some_iff.mp h
      cases h
      exact Placed.over (Placed.of_child hsrc hl hq (by simp) (hc _ (by simp) _ harg))
    · cases h
  · obtain ⟨parts, hparts, h⟩ := Option.bind_eq_some_iff.mp h
    obtain ⟨f, hf, h⟩ := Option.bind_eq_some_iff.mp h
    cases h
    exact Build.func?_placed hsrc hl hq hcs (function_inPlaces hn (.inr rfl)) hparts hf
  · split at h
    · obtain ⟨e, he, h⟩ := Option.bind_eq_some_iff.mp h
      cases h
      exact Placed.over (Placed.of_child hsrc hl hq (by simp) (hc _ (by simp) _ he))
    · cases h
  · cases h

/-- The builder reads every settled node whose descendants it reads with nested trees inside
their bytes in the same way. -/
theorem SpansFrom.of_children : SpansFrom src n :=
  ⟨hn, fun _ => Build.expr_placed hsrc hn hcs, fun _ => Build.stmt_placed hsrc hn hcs⟩

end Nodes

/-- The builder reads every node below a settled node with nested trees inside their bytes. -/
theorem Peg.Node.Every.spansFrom (hsrc : src.Ordered) {nd : Node Rule}
    (h : nd.Every (Node.Settled scriptGrammar src.chars)) : nd.Every (SpansFrom src) := by
  induction h with
  | intro hnd _ ih => exact .intro (SpansFrom.of_children hsrc hnd ih) ih

/-- A script that reads spans its whole text, and its tree of spans is nested: its statements
are what the builder makes of the children of the `script` node but for the end of input,
and so lie inside that node, which lies inside the text. -/
theorem Program.spanTree_nested {text : String} {prog : Program}
    (h : Program.parse text = .ok prog) :
    prog.span = ⟨0, text.utf8ByteSize⟩ ∧ prog.spanTree.Nested := by
  obtain ⟨nodes, hparse, hprog⟩ := Program.parse_eq_ok h
  have hsrc := Source.ofString_ordered text
  unfold Program.ofNodes? at hprog
  split at hprog
  · next _ a b cs =>
    obtain ⟨body, hbody, hprog⟩ := Option.bind_eq_some_iff.mp hprog
    cases hprog
    have hroot := parse_settled hparse _ (List.mem_singleton_self _)
    have hevery := (hroot.every scriptFuelPlan).spansFrom hsrc
    have hlaid : Span.Laid a b ((cs.filter fun n => !(n.rule == .eoi)).map Node.extent) :=
      hroot.laid.sublist (List.filter_sublist.map Node.extent)
    have hplaced := Build.stmts_placed hsrc hlaid hroot.stop_le
      (fun c hc => hevery.children c (List.mem_filter.mp hc).1) hbody
    refine ⟨by rw [Source.byte_size_ofString], ?_⟩
    refine (Placed.single (Placed.node (Nat.le_refl _) (Nat.le_refl _) ?_)).1
    exact hplaced.widen (Nat.zero_le _) (hsrc hroot.stop_le (Nat.le_refl _))
  · cases hprog

/-! ## Chains start where their node starts -/

/-- `e` is `head` under `k` links of a left-nested chain that each start at byte `b`: binary and
logical operations on their left operand, calls on their callee, member accesses on their
object. -/
inductive Expr.Links (b : Nat) (head : Expr) : Nat → Expr → Prop
  | head : Expr.Links b head 0 head
  | binary {k sp op l r} : Expr.Links b head k l → sp.start = b →
      Expr.Links b head (k + 1) (.binary sp op l r)
  | logical {k sp op l r} : Expr.Links b head k l → sp.start = b →
      Expr.Links b head (k + 1) (.logical sp op l r)
  | call {k sp l args} : Expr.Links b head k l → sp.start = b →
      Expr.Links b head (k + 1) (.call sp l args)
  | dot {k sp l name} : Expr.Links b head k l → sp.start = b →
      Expr.Links b head (k + 1) (.dot sp l name)
  | index {k sp l key} : Expr.Links b head k l → sp.start = b →
      Expr.Links b head (k + 1) (.index sp l key)

/-- The number of links of a chain node with `n` children after its first: a binary rule reads
an operator and an operand for each link, a logical rule an operand, a member or call chain a
suffix. Other rules read no chains. -/
def Rule.chainLinks : Rule → Nat → Option Nat
  | .equalityExpression, n | .relationalExpression, n | .additiveExpression, n
  | .multiplicativeExpression, n => some (n / 2)
  | .logicalOrExpression, n | .logicalAndExpression, n | .lhsExpression, n
  | .memberExpression, n => some n
  | _, _ => none

theorem Build.binaryChain_links (start : Nat) {head : Expr} :
    ∀ {cs : List (Node Rule)} {left e : Expr} {k : Nat}, Expr.Links (src.byte start) head k left →
      Build.binaryChain src start left cs = some e →
      Expr.Links (src.byte start) head (k + cs.length / 2) e
  | [], left, e, k, hk, h => by
    simp only [Build.binaryChain, Option.some.injEq] at h
    subst h
    simpa using hk
  | [_], _, _, _, _, h => by simp [Build.binaryChain] at h
  | op :: r :: rest, left, e, k, hk, h => by
    simp only [Build.binaryChain] at h
    obtain ⟨o, -, h⟩ := Option.bind_eq_some_iff.mp h
    obtain ⟨right, -, h⟩ := Option.bind_eq_some_iff.mp h
    have hlinks := Build.binaryChain_links start (.binary hk rfl) h
    have hcount : k + 1 + rest.length / 2 = k + (op :: r :: rest).length / 2 := by
      simp only [List.length_cons]
      omega
    rwa [hcount] at hlinks

theorem Build.logicalChain_links (start : Nat) (op : LogicalOp) {head : Expr} :
    ∀ {cs : List (Node Rule)} {left e : Expr} {k : Nat}, Expr.Links (src.byte start) head k left →
      Build.logicalChain src start op left cs = some e →
      Expr.Links (src.byte start) head (k + cs.length) e
  | [], left, e, k, hk, h => by
    simp only [Build.logicalChain, Option.some.injEq] at h
    subst h
    exact hk
  | r :: rest, left, e, k, hk, h => by
    simp only [Build.logicalChain] at h
    obtain ⟨right, -, h⟩ := Option.bind_eq_some_iff.mp h
    have hlinks := Build.logicalChain_links start op (.logical hk rfl) h
    have hcount : k + 1 + rest.length = k + (r :: rest).length := by
      simp only [List.length_cons]
      omega
    rwa [hcount] at hlinks

theorem Build.suffixChain_links (start : Nat) {head : Expr} {cs : List (Node Rule)} :
    ∀ {obj e : Expr} {k : Nat}, Expr.Links (src.byte start) head k obj →
      Build.suffixChain src start obj cs = some e →
      Expr.Links (src.byte start) head (k + cs.length) e := by
  induction cs with
  | nil =>
    intro obj e k hk h
    simp only [Build.suffixChain, Option.some.injEq] at h
    subst h
    exact hk
  | cons n rest ih =>
    intro obj e k hk h
    rw [List.length_cons, ← Nat.add_assoc, Nat.add_right_comm]
    unfold Build.suffixChain at h
    split at h
    · next _ _ b args rest' heq =>
      obtain ⟨rfl, rfl⟩ := List.cons.inj heq
      obtain ⟨vs, -, h⟩ := Option.bind_eq_some_iff.mp h
      exact ih (.call hk rfl) h
    · next _ _ b k' rest' heq =>
      obtain ⟨rfl, rfl⟩ := List.cons.inj heq
      exact ih (.dot hk rfl) h
    · next _ _ b k' rest' heq =>
      obtain ⟨rfl, rfl⟩ := List.cons.inj heq
      obtain ⟨key, -, h⟩ := Option.bind_eq_some_iff.mp h
      exact ih (.index hk rfl) h
    · next _ heq => cases heq
    · simp at h

/-- A chain rule's node stands for what the builder makes of its first child under one link for
each operator or suffix after it, every link starting where the node starts. -/
theorem Build.expr_chain_links {n c : Node Rule} {rest : List (Node Rule)} {k : Nat} {e : Expr}
    (hcs : n.children = c :: rest) (hk : n.rule.chainLinks rest.length = some k)
    (h : Build.expr src n = some e) :
    ∃ head, Build.expr src c = some head ∧ Expr.Links (src.byte n.start) head k e := by
  obtain ⟨r, a, b, cs⟩ := n
  simp only at hcs
  subst hcs
  cases r <;> simp only [Rule.chainLinks, reduceCtorEq, Option.some.injEq] at hk <;> subst hk <;>
    simp only [Build.expr, Build.binary, Build.suffixed] at h <;>
    obtain ⟨head, hhead, h⟩ := Option.bind_eq_some_iff.mp h
  all_goals refine ⟨head, hhead, ?_⟩
  all_goals first
    | simpa using Build.binaryChain_links a .head h
    | simpa using Build.logicalChain_links a _ .head h
    | simpa using Build.suffixChain_links a .head h

/-! ## Spans nest -/

/-- The spans of every script that reads nest. The script spans its whole text, from `0` to its
byte length. Every node of its syntax tree (statement, expression, declarator, name, entry of an
object literal, function body) starts no later than it stops and stops within the text. The
spans of its children lie inside its own, and they are disjoint and in source order. Wherever
the builder reads a chain of binary or logical operators, of member accesses or of calls, the
result is what it makes of the chain's first operand under one link for each operator or suffix,
every link starting where the chain's node starts. -/
theorem parsed_spans_nest (text : String) (prog : Program) (h : Program.parse text = .ok prog) :
    prog.span = ⟨0, text.utf8ByteSize⟩ ∧
    (∀ t ∈ prog.spanTree.nodes,
      t.span.start ≤ t.span.stop ∧ t.span.stop ≤ text.utf8ByteSize ∧
      (∀ c ∈ t.children, t.span.start ≤ c.span.start ∧ c.span.stop ≤ t.span.stop) ∧
      t.children.Pairwise fun x y => x.span.stop ≤ y.span.start) ∧
    ∀ (src : Source) (n c : Peg.Node Rule) (rest : List (Peg.Node Rule)) (k : Nat) (e : Expr),
      n.children = c :: rest → n.rule.chainLinks rest.length = some k →
      Build.expr src n = some e →
        ∃ head, Build.expr src c = some head ∧ Expr.Links (src.byte n.start) head k e := by
  obtain ⟨hspan, hnested⟩ := Program.spanTree_nested h
  refine ⟨hspan, fun t ht => ?_, fun _ _ _ _ _ _ hcs hk he => Build.expr_chain_links hcs hk he⟩
  obtain ⟨htn, -, hstop⟩ := hnested.nodes_inside t ht
  have hroot : prog.spanTree.span.stop = text.utf8ByteSize := by
    show prog.span.stop = _
    rw [hspan]
  have hl := htn.laid
  refine ⟨hl.le, Nat.le_trans hstop (Nat.le_of_eq hroot), fun c hc => ?_, ?_⟩
  · obtain ⟨h₁, -, h₂⟩ := hl.mem (List.mem_map_of_mem hc)
    exact ⟨h₁, h₂⟩
  · exact List.pairwise_map.mp hl.pairwise

/-- A script with a call, a member access, an assignment, a prefix operator, a parenthesised sum
and a logical chain reads, and its spans nest. -/
theorem member_call_script_spans_nest :
    ∃ prog, Program.parse "f(x).y = -a * (b + c) || d;" = .ok prog ∧
      prog.span = ⟨0, "f(x).y = -a * (b + c) || d;".utf8ByteSize⟩ ∧
      (∀ t ∈ prog.spanTree.nodes,
        t.span.start ≤ t.span.stop ∧ t.span.stop ≤ "f(x).y = -a * (b + c) || d;".utf8ByteSize ∧
        (∀ c ∈ t.children, t.span.start ≤ c.span.start ∧ c.span.stop ≤ t.span.stop) ∧
        t.children.Pairwise fun x y => x.span.stop ≤ y.span.start) ∧
      ∀ (src : Source) (n c : Peg.Node Rule) (rest : List (Peg.Node Rule)) (k : Nat) (e : Expr),
        n.children = c :: rest → n.rule.chainLinks rest.length = some k →
        Build.expr src n = some e →
          ∃ head, Build.expr src c = some head ∧ Expr.Links (src.byte n.start) head k e := by
  have hok : (Program.parse "f(x).y = -a * (b + c) || d;").isOk = true := by
    decide +kernel
  obtain ⟨prog, hprog⟩ : ∃ prog, Program.parse "f(x).y = -a * (b + c) || d;" = .ok prog := by
    cases hp : Program.parse "f(x).y = -a * (b + c) || d;" with
    | error _ =>
      rw [hp] at hok
      cases hok
    | ok prog => exact ⟨prog, rfl⟩
  exact ⟨prog, hprog, parsed_spans_nest _ _ hprog⟩

end EcmaLite
