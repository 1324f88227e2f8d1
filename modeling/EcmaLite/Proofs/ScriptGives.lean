import EcmaLite.Proofs.PegReads
import EcmaLite.Syntax.Build

/-!
# The nodes the script grammar gives

A successful parse of a script is a reading of the script grammar at the top mode, where visible
rules make nodes (`Gives`). This module says, for each way of putting the grammar together, what
such a reading gives: blanks give nothing (`blank_nil`), a sequence gives the nodes of its parts
one after the other, a visible rule gives one node of its own, and a rule that only chooses, such
as `statement` or `primary_expression`, gives the one node of the alternative it took
(`gives_statement`, `gives_primary`). Together they give the shapes of children that the
builder's lemmas need, one rule at a time.
-/

namespace EcmaLite

open Peg

/-! ## Readings of the script grammar at the top level -/

/-- `e`, read outside atomic bodies and lookaheads, can give the nodes `ns`. -/
def Gives (src : Source) (e : Peg.Expr Rule) (ns : List (Node Rule)) : Prop :=
  ∃ p q, Reads scriptGrammar src.chars ⟨.none, false⟩ e p q ns

variable {src : Source}

/-- Blanks are whitespace and comments, which make no nodes. -/
theorem blank_nil {m : Mode} {p q : Nat} {ns : List (Node Rule)}
    (h : Reads scriptGrammar src.chars m .blank p q ns) : ns = [] := by
  -- a rule that is atomic and invisible gives nothing
  have hsilent : ∀ {r : Rule}, Rule.kind r = ⟨false, true⟩ → ∀ {m p q ns},
      Reads scriptGrammar src.chars m (.rule r) p q ns → ns = [] := by
    intro r hr m p q ns h
    cases h with
    | rule hb =>
      have hxs := hb.nil_of_quiet (.inl (by simp [scriptGrammar, hr]))
      simp [scriptGrammar, hr, hxs]
  cases h with
  | blankAtomic => rfl
  | blank _ hb =>
    cases hb with
    | seq hws hrest =>
      -- runs of whitespace, and comments each followed by a run of whitespace
      have hws_nil : ∀ {p q ns}, Reads scriptGrammar src.chars m (.many (.rule .whitespace)) p q ns →
          ns = [] := by
        intro p q ns h
        obtain ⟨parts, rfl, hparts⟩ := h.many_parts
        refine List.flatten_eq_nil_iff.mpr fun xs hxs => ?_
        obtain ⟨_, _, hx⟩ := hparts xs hxs
        exact hsilent rfl hx
      obtain ⟨parts, rfl, hparts⟩ := hrest.many_parts
      rw [hws_nil hws, List.nil_append]
      refine List.flatten_eq_nil_iff.mpr fun xs hxs => ?_
      obtain ⟨_, _, hx⟩ := hparts xs hxs
      cases hx with
      | seq hc hw => rw [hsilent rfl hc, hws_nil hw, List.nil_append]

variable {a b : Peg.Expr Rule} {ns : List (Node Rule)}

theorem gives_seq (h : Gives src (.seq a b) ns) :
    ∃ xs ys, ns = xs ++ ys ∧ Gives src a xs ∧ Gives src b ys := by
  obtain ⟨p, q, h⟩ := h
  cases h with
  | seq ha hb => exact ⟨_, _, rfl, ⟨_, _, ha⟩, ⟨_, _, hb⟩⟩

theorem gives_andThen (h : Gives src (a.andThen b) ns) :
    ∃ xs ys, ns = xs ++ ys ∧ Gives src a xs ∧ Gives src b ys := by
  obtain ⟨xs, zs, rfl, ha, hz⟩ := gives_seq h
  obtain ⟨ws, ys, rfl, ⟨_, _, hw⟩, hb⟩ := gives_seq hz
  rw [blank_nil hw]
  exact ⟨xs, ys, rfl, ha, hb⟩

theorem gives_alt (h : Gives src (.alt a b) ns) : Gives src a ns ∨ Gives src b ns := by
  obtain ⟨p, q, h⟩ := h
  cases h with
  | altLeft ha => exact .inl ⟨_, _, ha⟩
  | altRight hb => exact .inr ⟨_, _, hb⟩

theorem gives_opt (h : Gives src (.opt a) ns) : ns = [] ∨ Gives src a ns := by
  obtain ⟨p, q, h⟩ := h
  cases h with
  | optSome ha => exact .inr ⟨_, _, ha⟩
  | optNone => exact .inl rfl

theorem gives_many (h : Gives src (.many a) ns) :
    ∃ parts : List (List (Node Rule)), ns = parts.flatten ∧ ∀ xs ∈ parts, Gives src a xs := by
  obtain ⟨p, q, h⟩ := h
  exact h.many_parts

theorem gives_star (h : Gives src a.star ns) :
    ∃ parts : List (List (Node Rule)), ns = parts.flatten ∧ ∀ xs ∈ parts, Gives src a xs := by
  rcases gives_opt h with rfl | h
  · exact ⟨[], rfl, by simp⟩
  · obtain ⟨xs, ys, rfl, ha, hm⟩ := gives_seq h
    obtain ⟨parts, rfl, hparts⟩ := gives_many hm
    -- each later repetition is a blank, which gives nothing, then the expression
    have hparts' : ∀ ys ∈ parts, Gives src a ys := by
      intro ys hys
      obtain ⟨ws, zs, rfl, ⟨_, _, hw⟩, hz⟩ := gives_seq (hparts ys hys)
      rw [blank_nil hw]
      exact hz
    refine ⟨xs :: parts, rfl, ?_⟩
    intro ys hys
    rcases List.mem_cons.mp hys with rfl | hys
    · exact ha
    · exact hparts' ys hys

theorem gives_oneOf {es : List (Peg.Expr Rule)} (hne : es ≠ [])
    (h : Gives src (Peg.Expr.oneOf es) ns) : ∃ e ∈ es, Gives src e ns := by
  induction es with
  | nil => exact absurd rfl hne
  | cons e rest ih =>
    cases rest with
    | nil => exact ⟨e, List.mem_singleton_self e, h⟩
    | cons e' rest =>
      rcases gives_alt h with h | h
      · exact ⟨e, List.mem_cons_self, h⟩
      · obtain ⟨e'', he'', h''⟩ := ih (List.cons_ne_nil _ _) h
        exact ⟨e'', List.mem_cons_of_mem _ he'', h''⟩

theorem gives_str {s : List Char} (h : Gives src (.str s) ns) : ns = [] := by
  obtain ⟨p, q, h⟩ := h
  cases h
  rfl

theorem gives_lit {s : String} (h : Gives src (Peg.Expr.lit s) ns) : ns = [] :=
  gives_str h

theorem gives_ahead (h : Gives src (.ahead a) ns) : ns = [] := by
  obtain ⟨p, q, h⟩ := h
  cases h
  rfl

theorem gives_word {w : String} (h : Gives src (Rule.word w) ns) : ns = [] := by
  obtain ⟨xs, ys, rfl, ha, hl⟩ := gives_andThen h
  rw [gives_ahead ha, gives_str hl]
  rfl

/-- A visible rule gives one node of its own. -/
theorem gives_rule_node {r : Rule} (hv : (Rule.kind r).visible = true)
    (h : Gives src (.rule r) ns) : ∃ n, ns = [n] ∧ n.rule = r := by
  obtain ⟨p, q, h⟩ := h
  cases h with
  | rule hb =>
    rename_i xs
    exact ⟨⟨r, p, q, xs⟩, by simp [scriptGrammar, hv], rfl⟩

/-- An invisible rule that is not atomic gives what its body gives. -/
theorem gives_rule_body {r : Rule} (hv : (Rule.kind r).visible = false)
    (ha : (Rule.kind r).atomic = false) (h : Gives src (.rule r) ns) :
    Gives src (Rule.body r) ns := by
  obtain ⟨p, q, h⟩ := h
  cases h with
  | rule hb =>
    simp only [scriptGrammar, hv, ha, Bool.false_eq_true, false_and, if_false,
      Bool.or_false] at hb ⊢
    exact ⟨_, _, hb⟩

/-! ## Expression and statement rules -/

/-- Rules whose nodes the builder reads as expressions. -/
def Rule.isExpression : Rule → Bool
  | .expression | .assignmentExpression | .conditionalExpression | .logicalOrExpression
  | .logicalAndExpression | .equalityExpression | .relationalExpression | .additiveExpression
  | .multiplicativeExpression | .unaryExpression | .postfixExpression | .lhsExpression
  | .memberExpression | .newMember | .newNoArgs | .thisExpression | .functionExpression
  | .identifier | .arrayLiteral | .objectLiteral | .nullLiteral | .booleanLiteral
  | .numericLiteral | .stringLiteral => true
  | _ => false

/-- Rules whose nodes the builder reads as statements. -/
def Rule.isStatement : Rule → Bool
  | .blockStatement | .variableStatement | .emptyStatement | .ifStatement | .whileStatement
  | .forStatement | .breakStatement | .continueStatement | .returnStatement
  | .functionDeclaration | .expressionStatement => true
  | _ => false

/-- The builder reads expressions off expression nodes only. -/
theorem Build.expr_none_of_not_expression {n : Node Rule} (hr : n.rule.isExpression = false) :
    Build.expr src n = none := by
  obtain ⟨r, a, b, cs⟩ := n
  cases r <;> simp_all [Rule.isExpression, Build.expr, Build.literal?]

/-- The builder reads statements off statement nodes only. -/
theorem Build.stmt_none_of_not_statement {n : Node Rule} (hr : n.rule.isStatement = false) :
    Build.stmt src n = none := by
  obtain ⟨r, a, b, cs⟩ := n
  cases r <;> simp_all [Rule.isStatement, Build.stmt]

/-! ## The shapes of children -/

/-- An optional literal, such as a trailing comma or semicolon, gives nothing. -/
theorem gives_opt_lit {s : String} (h : Gives src (.opt (Peg.Expr.lit s)) ns) : ns = [] := by
  rcases gives_opt h with rfl | h
  · rfl
  · exact gives_lit h


theorem gives_rule_each {r : Rule} (hv : (Rule.kind r).visible = true)
    (h : Gives src (.rule r) ns) : ∀ c ∈ ns, c.rule = r := by
  obtain ⟨n, rfl, hn⟩ := gives_rule_node hv h
  simpa using hn

theorem gives_opt_each {e : Peg.Expr Rule} {P : Node Rule → Prop}
    (he : ∀ {ns}, Gives src e ns → ∀ c ∈ ns, P c) (h : Gives src (.opt e) ns) :
    ∀ c ∈ ns, P c := by
  rcases gives_opt h with rfl | h
  · simp
  · exact he h

theorem gives_star_each {e : Peg.Expr Rule} {P : Node Rule → Prop}
    (he : ∀ {ns}, Gives src e ns → ∀ c ∈ ns, P c) (h : Gives src e.star ns) :
    ∀ c ∈ ns, P c := by
  obtain ⟨parts, rfl, hparts⟩ := gives_star h
  intro c hc
  obtain ⟨xs, hxs, hc⟩ := List.mem_flatten.mp hc
  exact he (hparts xs hxs) c hc

theorem gives_commaList_each {e : Peg.Expr Rule} {P : Node Rule → Prop}
    (he : ∀ {ns}, Gives src e ns → ∀ c ∈ ns, P c) (h : Gives src (Rule.commaList e) ns) :
    ∀ c ∈ ns, P c := by
  simp only [Rule.commaList, Peg.Expr.chain] at h
  obtain ⟨xs, ys, rfl, hx, hy⟩ := gives_andThen h
  have hy' := gives_star_each (fun {ns} h => by
    obtain ⟨os, zs, rfl, ho, hz⟩ := gives_andThen h
    rw [gives_str ho, List.nil_append]
    exact he hz) hy
  intro c hc
  rcases List.mem_append.mp hc with hc | hc
  · exact he hx c hc
  · exact hy' c hc

/-- `statement` only chooses: it gives one statement node. -/
theorem gives_statement (h : Gives src (.rule .statement) ns) :
    ∃ n, ns = [n] ∧ n.rule.isStatement = true := by
  have h := gives_rule_body rfl rfl h
  simp only [Rule.body] at h
  obtain ⟨e, he, h⟩ := gives_oneOf (List.cons_ne_nil _ _) h
  simp only [List.mem_cons, List.not_mem_nil, or_false] at he
  rcases he with rfl | rfl | rfl | rfl | rfl | rfl | rfl | rfl | rfl | rfl | rfl <;>
  · obtain ⟨n, rfl, hn⟩ := gives_rule_node rfl h
    exact ⟨n, rfl, by rw [hn]; rfl⟩

/-- A visible expression rule gives one expression node. -/
theorem gives_expression_node {r : Rule} (hv : (Rule.kind r).visible = true)
    (he : r.isExpression = true) (h : Gives src (.rule r) ns) :
    ∃ n, ns = [n] ∧ n.rule.isExpression = true := by
  obtain ⟨n, rfl, hn⟩ := gives_rule_node hv h
  exact ⟨n, rfl, by rw [hn]; exact he⟩

/-- `primary_expression` only chooses: it gives one expression node. -/
theorem gives_primary (h : Gives src (.rule .primaryExpression) ns) :
    ∃ n, ns = [n] ∧ n.rule.isExpression = true := by
  have h := gives_rule_body rfl rfl h
  simp only [Rule.body] at h
  obtain ⟨e, he, h⟩ := gives_oneOf (List.cons_ne_nil _ _) h
  by_cases hparen : e = Peg.Expr.chain [Peg.Expr.lit "(", .rule .expression, Peg.Expr.lit ")"]
  · -- a parenthesised expression gives the node of the expression inside
    subst hparen
    simp only [Peg.Expr.chain] at h
    obtain ⟨os, ys, rfl, ho, hy⟩ := gives_andThen h
    obtain ⟨es, cs, rfl, he, hc⟩ := gives_andThen hy
    rw [gives_lit ho, gives_lit hc, List.nil_append, List.append_nil]
    exact gives_expression_node rfl rfl he
  · -- every other alternative is an expression rule
    simp only [List.mem_cons, List.not_mem_nil, or_false, hparen] at he
    rcases he with rfl | rfl | rfl | rfl | rfl | rfl | rfl | rfl | rfl <;>
    exact gives_expression_node rfl rfl h

theorem gives_joined {operand op : Peg.Expr Rule} (h : Gives src (Rule.joined operand op) ns) :
    ∃ (xs : List (Node Rule)) (parts : List (List (Node Rule))),
      ns = xs ++ parts.flatten ∧ Gives src operand xs ∧
      ∀ pr ∈ parts, ∃ os zs, pr = os ++ zs ∧ Gives src op os ∧ Gives src operand zs := by
  simp only [Rule.joined, Peg.Expr.chain] at h
  obtain ⟨xs, ys, rfl, hx, hy⟩ := gives_andThen h
  obtain ⟨parts, rfl, hparts⟩ := gives_star hy
  exact ⟨xs, parts, rfl, hx, fun pr hpr => gives_andThen (hparts pr hpr)⟩

/-- The parts of a function literal or declaration: an optional name, the parameters, the
body. -/
theorem gives_function {name : Peg.Expr Rule} 
    (hname : ∀ {ys}, Gives src name ys → ∀ c ∈ ys, c.rule = .identifier)
    (h : Gives src (Peg.Expr.chain [Rule.word "function", name, Peg.Expr.lit "(",
      .rule .formalParameters, Peg.Expr.lit ")", .rule .functionBody]) ns) :
    ∃ ids params body, ns = ids ++ [params, body] ∧ (∀ c ∈ ids, c.rule = .identifier) ∧
      params.rule = .formalParameters ∧ body.rule = .functionBody := by
  simp only [Peg.Expr.chain] at h
  obtain ⟨ws, r1, rfl, hw, h1⟩ := gives_andThen h
  obtain ⟨ids, r2, rfl, hids, h2⟩ := gives_andThen h1
  obtain ⟨l1, r3, rfl, hl1, h3⟩ := gives_andThen h2
  obtain ⟨ps, r4, rfl, hps, h4⟩ := gives_andThen h3
  obtain ⟨l2, bs, rfl, hl2, hbs⟩ := gives_andThen h4
  obtain ⟨params, rfl, hpr⟩ := gives_rule_node rfl hps
  obtain ⟨body, rfl, hbr⟩ := gives_rule_node rfl hbs
  rw [gives_word hw, gives_lit hl1, gives_lit hl2]
  exact ⟨ids, params, body, by simp, hname hids, hpr, hbr⟩

/-- A brace-delimited list of statements: a block or a function body. -/
theorem gives_braced
    (h : Gives src (Peg.Expr.chain [Peg.Expr.lit "\x7b", Peg.Expr.star (.rule .statement),
      Peg.Expr.lit "\x7d"]) ns) : ∀ c ∈ ns, c.rule.isStatement = true := by
  simp only [Peg.Expr.chain] at h
  obtain ⟨l1, r1, rfl, hl1, h1⟩ := gives_andThen h
  obtain ⟨ss, l2, rfl, hss, hl2⟩ := gives_andThen h1
  rw [gives_lit hl1, gives_lit hl2, List.nil_append, List.append_nil]
  refine gives_star_each (fun {ys} h => ?_) hss
  obtain ⟨n, rfl, hn⟩ := gives_statement h
  simpa using hn

end EcmaLite
