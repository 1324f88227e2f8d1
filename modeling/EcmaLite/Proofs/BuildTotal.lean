import EcmaLite.Proofs.ScriptGives
import EcmaLite.Syntax.Parse

/-!
# The builder reads every tree the grammar gives

`Program.parse` runs the script grammar and then builds the syntax tree from the nodes; the
builder gives up (and the parse reports an unexpected end of construct) on a node whose children
are not of the shape it reads or whose operator text it does not know. No parse tree of the
grammar is such a node: a parse that the grammar accepts builds, and a parse that it rejects is
reported by the grammar's own failure (`parse_fails_only_where_grammar_does`).

`Built` says, rule by rule, what the builder needs of a node. Each rule's lemma shows that a node
of the rule has it once its children do, from the shape of what the rule's body gives
(`ScriptGives`); an operator token has it because every spelling of the rule is one the builder
knows (`text_of_spelled`). `built_of_body` collects the rules, and an induction on the reading
gives it for every node of a successful run (`reads_built`).
-/

namespace EcmaLite

open Peg

variable {src : Source}

/-! ## What the builder needs of each node -/

/-- What the builder needs of a node, by its rule: an expression or a statement it can read,
an operator token it knows, or children of the shape it reads. -/
def Built (src : Source) (n : Node Rule) : Prop :=
  if n.rule.isExpression then (Build.expr src n).isSome = true
  else if n.rule.isStatement then (Build.stmt src n).isSome = true
  else match n.rule with
    | .assignmentOperator => (Build.assignOp? (src.text n)).isSome = true
    | .equalityOperator | .relationalOperator | .additiveOperator | .multiplicativeOperator =>
      (Build.binaryOp? (src.text n)).isSome = true
    | .unaryOperator =>
      (Build.updateOp? (src.text n)).isSome = true ∨ (Build.unaryOp? (src.text n)).isSome = true
    | .postfixOperator => (Build.updateOp? (src.text n)).isSome = true
    | .dotMember => ∃ i, n.children = [i]
    | .computedMember => ∃ k, n.children = [k] ∧ (Build.expr src k).isSome = true
    | .arguments => (Build.exprs src n.children).isSome = true
    | .propertyAssignment => ∃ k v, n.children = [k, v] ∧ (Build.key? src k).isSome = true ∧
        (Build.expr src v).isSome = true
    | .functionBody => (Build.stmts src n.children).isSome = true
    | .variableDeclarationList => (Build.declarators src n.children).isSome = true
    | .variableDeclaration =>
      (∃ i, n.children = [i]) ∨ ∃ i x, n.children = [i, x] ∧ (Build.expr src x).isSome = true
    | .forInit => ∃ c, n.children = [c] ∧
        ((c.rule = .variableDeclarationList ∧ (Build.declarators src c.children).isSome = true) ∨
          (c.rule = .expression ∧ (Build.expr src c).isSome = true))
    | .forTest | .forUpdate => ∃ c, n.children = [c] ∧ (Build.expr src c).isSome = true
    | .script => (Build.stmts src (n.children.filter fun c => !(c.rule == .eoi))).isSome = true
    | _ => True

theorem built_expression {n : Node Rule} (hr : n.rule.isExpression = true) :
    Built src n ↔ (Build.expr src n).isSome := by
  simp [Built, hr]

theorem built_statement {n : Node Rule} (hr : n.rule.isStatement = true) :
    Built src n ↔ (Build.stmt src n).isSome := by
  have he : n.rule.isExpression = false := by
    revert hr
    cases n.rule <;> decide
  simp [Built, hr, he]

theorem Built.expr {n : Node Rule} (hb : Built src n) (hr : n.rule.isExpression = true) :
    ∃ e, Build.expr src n = some e :=
  Option.isSome_iff_exists.mp ((built_expression hr).mp hb)

theorem Built.stmt {n : Node Rule} (hb : Built src n) (hr : n.rule.isStatement = true) :
    ∃ s, Build.stmt src n = some s :=
  Option.isSome_iff_exists.mp ((built_statement hr).mp hb)

/-! ## The builder on lists of nodes -/

namespace Build

theorem exprs_some {cs : List (Node Rule)} (h : ∀ c ∈ cs, ∃ e, expr src c = some e) :
    ∃ es, exprs src cs = some es := by
  induction cs with
  | nil => exact ⟨[], by simp [exprs]⟩
  | cons c rest ih =>
    obtain ⟨e, he⟩ := h c List.mem_cons_self
    obtain ⟨es, hes⟩ := ih fun c hc => h c (List.mem_cons_of_mem _ hc)
    exact ⟨e :: es, by simp [exprs, he, hes]⟩

theorem stmts_some {cs : List (Node Rule)} (h : ∀ c ∈ cs, ∃ s, stmt src c = some s) :
    ∃ ss, stmts src cs = some ss := by
  induction cs with
  | nil => exact ⟨[], by simp [stmts]⟩
  | cons c rest ih =>
    obtain ⟨s, hs⟩ := h c List.mem_cons_self
    obtain ⟨ss, hss⟩ := ih fun c hc => h c (List.mem_cons_of_mem _ hc)
    exact ⟨s :: ss, by simp [stmts, hs, hss]⟩

/-- A binary chain reads when each link is an operator it knows and an operand it reads. -/
theorem binaryChain_some (start : Nat) {parts : List (List (Node Rule))}
    (h : ∀ pr ∈ parts, ∃ o x, pr = [o, x] ∧ (binaryOp? (src.text o)).isSome = true ∧
      ∃ e, expr src x = some e) (left : Expr) :
    ∃ e, binaryChain src start left parts.flatten = some e := by
  induction parts generalizing left with
  | nil => exact ⟨left, by simp [binaryChain]⟩
  | cons pr rest ih =>
    obtain ⟨o, x, rfl, ho, e, he⟩ := h pr List.mem_cons_self
    obtain ⟨bo, hbo⟩ := Option.isSome_iff_exists.mp ho
    obtain ⟨r, hr⟩ := ih (fun pr hpr => h pr (List.mem_cons_of_mem _ hpr))
      (.binary (src.span start x.stop) bo left e)
    exact ⟨r, by simp [binaryChain, hbo, he, hr]⟩

theorem logicalChain_some (start : Nat) (op : LogicalOp) {cs : List (Node Rule)}
    (h : ∀ c ∈ cs, ∃ e, expr src c = some e) (left : Expr) :
    ∃ e, logicalChain src start op left cs = some e := by
  induction cs generalizing left with
  | nil => exact ⟨left, by simp [logicalChain]⟩
  | cons c rest ih =>
    obtain ⟨e, he⟩ := h c List.mem_cons_self
    obtain ⟨r, hr⟩ := ih (fun c hc => h c (List.mem_cons_of_mem _ hc))
      (.logical (src.span start c.stop) op left e)
    exact ⟨r, by simp [logicalChain, he, hr]⟩

theorem applyPrefix_some {stop : Nat} {o : Node Rule}
    (ho : (updateOp? (src.text o)).isSome = true ∨ (unaryOp? (src.text o)).isSome = true)
    (arg : Expr) : ∃ e, applyPrefix? src stop o arg = some e := by
  unfold applyPrefix?
  cases hup : updateOp? (src.text o) with
  | some u => exact ⟨_, rfl⟩
  | none =>
    rcases ho with ho | ho
    · rw [hup] at ho
      cases ho
    · obtain ⟨u, hu⟩ := Option.isSome_iff_exists.mp ho
      exact ⟨.unary (src.span o.start stop) u arg, by simp [hu]⟩

/-- Prefix operators it knows, before an operand it reads. -/
theorem prefixed_some (stop : Nat) {ops : List (Node Rule)} {arg : Node Rule}
    (hops : ∀ o ∈ ops, (updateOp? (src.text o)).isSome = true ∨ (unaryOp? (src.text o)).isSome = true)
    (harg : ∃ e, expr src arg = some e) : ∃ e, prefixed src stop (ops ++ [arg]) = some e := by
  induction ops with
  | nil => simpa [prefixed] using harg
  | cons o rest ih =>
    obtain ⟨e, he⟩ := ih fun o ho => hops o (List.mem_cons_of_mem _ ho)
    rw [List.cons_append, prefixed.eq_2 _ _ _ _ (by simp), he]
    exact applyPrefix_some (hops o List.mem_cons_self) e

/-- Suffixes it reads, applied one after the other. -/
theorem suffixChain_some (start : Nat) {sufs : List (Node Rule)}
    (h : ∀ c ∈ sufs, (c.rule = .arguments ∨ c.rule = .dotMember ∨ c.rule = .computedMember) ∧
      Built src c) (obj : Expr) : ∃ e, suffixChain src start obj sufs = some e := by
  induction sufs generalizing obj with
  | nil => exact ⟨obj, by simp [suffixChain]⟩
  | cons c rest ih =>
    have ih' := ih fun c hc => h c (List.mem_cons_of_mem _ hc)
    obtain ⟨hr, hb⟩ := h c List.mem_cons_self
    obtain ⟨r, a, b, cs⟩ := c
    simp only at hr
    rcases hr with rfl | rfl | rfl
    · simp only [Built, Rule.isExpression, Rule.isStatement, Bool.false_eq_true, if_false] at hb
      obtain ⟨args, hargs⟩ := Option.isSome_iff_exists.mp hb
      obtain ⟨e, he⟩ := ih' (.call (src.span start b) obj args)
      exact ⟨e, by simp [suffixChain, hargs, he]⟩
    · simp only [Built, Rule.isExpression, Rule.isStatement, Bool.false_eq_true, if_false] at hb
      obtain ⟨i, rfl⟩ := hb
      obtain ⟨e, he⟩ := ih' (.dot (src.span start b) obj (src.ident i))
      exact ⟨e, by simp [suffixChain, he]⟩
    · simp only [Built, Rule.isExpression, Rule.isStatement, Bool.false_eq_true, if_false] at hb
      obtain ⟨k, rfl, hk⟩ := hb
      obtain ⟨key, hkey⟩ := Option.isSome_iff_exists.mp hk
      obtain ⟨e, he⟩ := ih' (.index (src.span start b) obj key)
      exact ⟨e, by simp [suffixChain, hkey, he]⟩

theorem props_some {cs : List (Node Rule)}
    (h : ∀ c ∈ cs, c.rule = .propertyAssignment ∧ Built src c) : (props src cs).isSome = true := by
  induction cs with
  | nil => simp [props]
  | cons c rest ih =>
    obtain ⟨ps, hps⟩ := Option.isSome_iff_exists.mp (ih fun c hc => h c (List.mem_cons_of_mem _ hc))
    obtain ⟨hr, hb⟩ := h c List.mem_cons_self
    obtain ⟨r, a, b, ch⟩ := c
    simp only at hr
    subst hr
    simp only [Built, Rule.isExpression, Rule.isStatement, Bool.false_eq_true, if_false] at hb
    obtain ⟨k, v, rfl, hk, hv⟩ := hb
    obtain ⟨key, hkey⟩ := Option.isSome_iff_exists.mp hk
    obtain ⟨e, he⟩ := Option.isSome_iff_exists.mp hv
    simp [props, hkey, he, hps]

theorem declarators_some {cs : List (Node Rule)}
    (h : ∀ c ∈ cs, c.rule = .variableDeclaration ∧ Built src c) :
    (declarators src cs).isSome = true := by
  induction cs with
  | nil => simp [declarators]
  | cons c rest ih =>
    obtain ⟨ds, hds⟩ :=
      Option.isSome_iff_exists.mp (ih fun c hc => h c (List.mem_cons_of_mem _ hc))
    obtain ⟨hr, hb⟩ := h c List.mem_cons_self
    obtain ⟨r, a, b, ch⟩ := c
    simp only at hr
    subst hr
    simp only [Built, Rule.isExpression, Rule.isStatement, Bool.false_eq_true, if_false] at hb
    rcases hb with ⟨i, rfl⟩ | ⟨i, x, rfl, hx⟩
    · simp [declarators, hds]
    · obtain ⟨e, he⟩ := Option.isSome_iff_exists.mp hx
      simp [declarators, he, hds]

/-- A function's parts read when its body does: the name and the parameters before it. -/
theorem funcParts_some {name : List (Node Rule)} {params body : Node Rule}
    (hname : ∀ c ∈ name, c.rule = .identifier) (hparams : params.rule = .formalParameters)
    (hbody : body.rule = .functionBody) (hb : Built src body) :
    ∃ n ps sp ss, funcParts src (name ++ [params, body]) = some (n, ps, some (sp, ss)) := by
  obtain ⟨r, a, b, ch⟩ := body
  simp only at hbody
  subst hbody
  simp only [Built, Rule.isExpression, Rule.isStatement, Bool.false_eq_true, if_false] at hb
  obtain ⟨ss, hss⟩ := Option.isSome_iff_exists.mp hb
  obtain ⟨r', a', b', ps⟩ := params
  simp only at hparams
  subst hparams
  -- the body, then the parameters before it, then the name if there is one
  have hrest : funcParts src [⟨.formalParameters, a', b', ps⟩, ⟨.functionBody, a, b, ch⟩] =
      some (none, ps.map src.ident, some (src.span a b, ss)) := by
    simp [funcParts, hss]
  induction name with
  | nil => exact ⟨_, _, _, _, hrest⟩
  | cons c rest ih =>
    obtain ⟨n, ps', sp, ss', h⟩ := ih fun c hc => hname c (List.mem_cons_of_mem _ hc)
    obtain ⟨r, a'', b'', ch'⟩ := c
    have hr : r = .identifier := hname _ List.mem_cons_self
    subst hr
    exact ⟨some (src.ident ⟨.identifier, a'', b'', ch'⟩), ps', sp, ss', by simp [funcParts, h]⟩

/-- The clauses of a `for` read when each is one it knows, and the body when it is a statement
that reads. -/
theorem forParts_some {clauses : List (Node Rule)} {s : Node Rule}
    (hc : ∀ c ∈ clauses, (c.rule = .forInit ∨ c.rule = .forTest ∨ c.rule = .forUpdate) ∧
      Built src c)
    (hs : s.rule.isStatement = true) (hsb : ∃ st, stmt src s = some st) :
    ∃ i t u b, forParts src (clauses ++ [s]) = some (i, t, u, some b) := by
  induction clauses with
  | nil =>
    obtain ⟨st, hst⟩ := hsb
    obtain ⟨r, a, b, cs⟩ := s
    refine ⟨none, none, none, st, ?_⟩
    rw [List.nil_append, forParts.eq_5]
    · simp [forParts, hst]
    all_goals
      intro _ _ _ h
      simp only [Node.mk.injEq] at h
      rw [h.1] at hs
      cases hs
  | cons c rest ih =>
    obtain ⟨i, t, u, b, h⟩ := ih fun c hc' => hc c (List.mem_cons_of_mem _ hc')
    obtain ⟨hr, hb⟩ := hc c List.mem_cons_self
    obtain ⟨r, a, b', cs⟩ := c
    simp only at hr
    rcases hr with rfl | rfl | rfl
    · simp only [Built, Rule.isExpression, Rule.isStatement, Bool.false_eq_true, if_false] at hb
      obtain ⟨x, rfl, hx⟩ := hb
      obtain ⟨rx, ax, bx, csx⟩ := x
      rcases hx with ⟨hrx, hd⟩ | ⟨hrx, he⟩
      · simp only at hrx
        subst hrx
        obtain ⟨ds, hds⟩ := Option.isSome_iff_exists.mp hd
        exact ⟨some (.vars (src.span ax bx) ds), t, u, b, by simp [forParts, h, hds]⟩
      · simp only at hrx
        subst hrx
        obtain ⟨e, he⟩ := Option.isSome_iff_exists.mp he
        exact ⟨some (.expr e), t, u, b, by simp [forParts, h, he]⟩
    · simp only [Built, Rule.isExpression, Rule.isStatement, Bool.false_eq_true, if_false] at hb
      obtain ⟨x, rfl, hx⟩ := hb
      obtain ⟨e, he⟩ := Option.isSome_iff_exists.mp hx
      exact ⟨i, some e, u, b, by simp [forParts, h, he]⟩
    · simp only [Built, Rule.isExpression, Rule.isStatement, Bool.false_eq_true, if_false] at hb
      obtain ⟨x, rfl, hx⟩ := hb
      obtain ⟨e, he⟩ := Option.isSome_iff_exists.mp hx
      exact ⟨i, t, some e, b, by simp [forParts, h, he]⟩

end Build

/-! ## Each rule's node reads when its children do -/

variable {xs : List (Node Rule)} {a b : Nat}

theorem built_expressionNode (h : Gives src (Rule.body .expression) xs)
    (hc : ∀ c ∈ xs, Built src c) : Built src ⟨.expression, a, b, xs⟩ := by
  rw [built_expression rfl]
  have hr := gives_commaList_each (gives_rule_each rfl) h
  obtain ⟨es, hes⟩ := Build.exprs_some fun c hcx => (hc c hcx).expr (by rw [hr c hcx]; rfl)
  simp only [Build.expr, hes, Option.bind_eq_bind, Option.bind_some]
  split <;> rfl

theorem built_assignmentNode (h : Gives src (Rule.body .assignmentExpression) xs)
    (hc : ∀ c ∈ xs, Built src c) : Built src ⟨.assignmentExpression, a, b, xs⟩ := by
  rw [built_expression rfl]
  simp only [Rule.body, Peg.Expr.chain] at h
  obtain ⟨ys, zs, rfl, hl, hz⟩ := gives_andThen h
  obtain ⟨l, rfl, hlr⟩ := gives_rule_node rfl hl
  obtain ⟨el, hel⟩ := (hc l (by simp)).expr (by rw [hlr]; rfl)
  rcases gives_opt hz with rfl | hz
  · simp [Build.expr, hel]
  · obtain ⟨os, rs, rfl, ho, hr⟩ := gives_andThen hz
    obtain ⟨o, rfl, hor⟩ := gives_rule_node rfl ho
    obtain ⟨r, rfl, hrr⟩ := gives_rule_node rfl hr
    have ho' : (Build.assignOp? (src.text o)).isSome = true := by
      simpa [Built, hor, Rule.isExpression, Rule.isStatement] using hc o (by simp)
    obtain ⟨op, hop⟩ := Option.isSome_iff_exists.mp ho'
    obtain ⟨er, her⟩ := (hc r (by simp)).expr (by rw [hrr]; rfl)
    simp [Build.expr, hop, hel, her]

theorem built_conditionalNode (h : Gives src (Rule.body .conditionalExpression) xs)
    (hc : ∀ c ∈ xs, Built src c) : Built src ⟨.conditionalExpression, a, b, xs⟩ := by
  rw [built_expression rfl]
  simp only [Rule.body, Peg.Expr.chain] at h
  obtain ⟨ys, zs, rfl, ht, hz⟩ := gives_andThen h
  obtain ⟨t, rfl, htr⟩ := gives_rule_node rfl ht
  obtain ⟨et, het⟩ := (hc t (by simp)).expr (by rw [htr]; rfl)
  rcases gives_opt hz with rfl | hz
  · simp [Build.expr, het]
  · obtain ⟨q1, r1, rfl, hq1, hr1⟩ := gives_andThen hz
    obtain ⟨ys', r2, rfl, hy, hr2⟩ := gives_andThen hr1
    obtain ⟨q3, ns', rfl, hq3, hn⟩ := gives_andThen hr2
    obtain ⟨y, rfl, hyr⟩ := gives_rule_node rfl hy
    obtain ⟨n, rfl, hnr⟩ := gives_rule_node rfl hn
    rw [gives_lit hq1, gives_lit hq3] at hc ⊢
    obtain ⟨ey, hey⟩ := (hc y (by simp)).expr (by rw [hyr]; rfl)
    obtain ⟨en, hen⟩ := (hc n (by simp)).expr (by rw [hnr]; rfl)
    simp [Build.expr, het, hey, hen]

/-- A chain of operands joined by a logical operator reads when its operands do. -/
theorem built_logical {R X : Rule} (op : LogicalOp) {tok : String}
    (hR : R.isExpression = true) (hX : X.isExpression = true)
    (hv : (Rule.kind X).visible = true)
    (heq : ∀ a b c rest, Build.expr src ⟨R, a, b, c :: rest⟩ =
      (Build.expr src c).bind fun e => Build.logicalChain src a op e rest)
    (h : Gives src (Rule.joined (.rule X) (Peg.Expr.lit tok)) xs) (hc : ∀ c ∈ xs, Built src c) :
    Built src ⟨R, a, b, xs⟩ := by
  rw [built_expression hR]
  obtain ⟨ys, parts, rfl, hy, hparts⟩ := gives_joined h
  obtain ⟨c, rfl, hcr⟩ := gives_rule_node hv hy
  obtain ⟨ec, hec⟩ := (hc c (by simp)).expr (by rw [hcr]; exact hX)
  have hrest : ∀ d ∈ parts.flatten, ∃ e, Build.expr src d = some e := by
    intro d hd
    obtain ⟨pr, hpr, hd'⟩ := List.mem_flatten.mp hd
    obtain ⟨os, zs, rfl, ho, hz⟩ := hparts pr hpr
    rw [gives_lit ho, List.nil_append] at hd'
    have hdr := gives_rule_each hv hz d hd'
    exact (hc d (List.mem_append_right _ hd)).expr (by rw [hdr]; exact hX)
  obtain ⟨e, he⟩ := Build.logicalChain_some a op hrest ec
  rw [List.singleton_append, heq]
  simp [hec, he]

/-- A chain of operands joined by binary operators reads when its operators are ones the builder
knows and its operands read. -/
theorem built_binary {R X O : Rule} (hR : R.isExpression = true) (hX : X.isExpression = true)
    (hvX : (Rule.kind X).visible = true) (hvO : (Rule.kind O).visible = true)
    (hO : ∀ n : Node Rule, n.rule = O → Built src n → (Build.binaryOp? (src.text n)).isSome = true)
    (heq : ∀ a b cs, Build.expr src ⟨R, a, b, cs⟩ = Build.binary src a cs)
    (h : Gives src (Rule.joined (.rule X) (.rule O)) xs) (hc : ∀ c ∈ xs, Built src c) :
    Built src ⟨R, a, b, xs⟩ := by
  rw [built_expression hR, heq]
  obtain ⟨ys, parts, rfl, hy, hparts⟩ := gives_joined h
  obtain ⟨c, rfl, hcr⟩ := gives_rule_node hvX hy
  obtain ⟨ec, hec⟩ := (hc c (by simp)).expr (by rw [hcr]; exact hX)
  have hpairs : ∀ pr ∈ parts, ∃ o x, pr = [o, x] ∧ (Build.binaryOp? (src.text o)).isSome = true ∧
      ∃ e, Build.expr src x = some e := by
    intro pr hpr
    obtain ⟨os, zs, rfl, ho, hz⟩ := hparts pr hpr
    obtain ⟨o, rfl, hor⟩ := gives_rule_node hvO ho
    obtain ⟨x, rfl, hxr⟩ := gives_rule_node hvX hz
    have hmem : ∀ d ∈ [o] ++ [x], d ∈ [c] ++ parts.flatten := fun d hd =>
      List.mem_append_right _ (List.mem_flatten.mpr ⟨_, hpr, hd⟩)
    exact ⟨o, x, rfl, hO o hor (hc o (hmem o (by simp))),
      (hc x (hmem x (by simp))).expr (by rw [hxr]; exact hX)⟩
  obtain ⟨e, he⟩ := Build.binaryChain_some a hpairs ec
  simp [Build.binary, hec, he]

theorem built_unaryNode (h : Gives src (Rule.body .unaryExpression) xs)
    (hc : ∀ c ∈ xs, Built src c) : Built src ⟨.unaryExpression, a, b, xs⟩ := by
  rw [built_expression rfl]
  simp only [Rule.body, Peg.Expr.chain] at h
  obtain ⟨ops, ys, rfl, hops, hy⟩ := gives_andThen h
  obtain ⟨arg, rfl, hargr⟩ := gives_rule_node rfl hy
  have hopr := gives_star_each (gives_rule_each rfl) hops
  have hops' : ∀ o ∈ ops, (Build.updateOp? (src.text o)).isSome = true ∨
      (Build.unaryOp? (src.text o)).isSome = true := by
    intro o ho
    simpa [Built, hopr o ho, Rule.isExpression, Rule.isStatement] using
      hc o (List.mem_append_left _ ho)
  obtain ⟨e, he⟩ := Build.prefixed_some b hops'
    ((hc arg (by simp)).expr (by rw [hargr]; rfl))
  simp [Build.expr, he]

theorem built_postfixNode (h : Gives src (Rule.body .postfixExpression) xs)
    (hc : ∀ c ∈ xs, Built src c) : Built src ⟨.postfixExpression, a, b, xs⟩ := by
  rw [built_expression rfl]
  simp only [Rule.body, Peg.Expr.chain] at h
  obtain ⟨ys, zs, rfl, hy, hz⟩ := gives_andThen h
  obtain ⟨arg, rfl, hargr⟩ := gives_rule_node rfl hy
  obtain ⟨e, he⟩ := (hc arg (by simp)).expr (by rw [hargr]; rfl)
  rcases gives_opt hz with rfl | hz
  · simp [Build.expr, he]
  · obtain ⟨o, rfl, hor⟩ := gives_rule_node rfl hz
    have ho : (Build.updateOp? (src.text o)).isSome = true := by
      simpa [Built, hor, Rule.isExpression, Rule.isStatement] using hc o (by simp)
    obtain ⟨u, hu⟩ := Option.isSome_iff_exists.mp ho
    simp [Build.expr, he, hu]

/-- A head followed by suffixes reads when the head is an expression that reads and the
suffixes are ones the builder reads. -/
theorem built_suffixed {R : Rule} (hR : R.isExpression = true)
    (heq : ∀ a b cs, Build.expr src ⟨R, a, b, cs⟩ = Build.suffixed src a cs)
    {head : Node Rule} {sufs : List (Node Rule)} (hxs : xs = head :: sufs)
    (hhead : head.rule.isExpression = true)
    (hsufs : ∀ c ∈ sufs, c.rule = .arguments ∨ c.rule = .dotMember ∨ c.rule = .computedMember)
    (hc : ∀ c ∈ xs, Built src c) : Built src ⟨R, a, b, xs⟩ := by
  subst hxs
  rw [built_expression hR, heq]
  obtain ⟨eh, heh⟩ := (hc head List.mem_cons_self).expr hhead
  obtain ⟨e, he⟩ := Build.suffixChain_some a
    (fun c hcs => ⟨hsufs c hcs, hc c (List.mem_cons_of_mem _ hcs)⟩) eh
  simp [Build.suffixed, heh, he]

theorem built_lhsNode (h : Gives src (Rule.body .lhsExpression) xs)
    (hc : ∀ c ∈ xs, Built src c) : Built src ⟨.lhsExpression, a, b, xs⟩ := by
  simp only [Rule.body, Peg.Expr.chain] at h
  obtain ⟨ys, sufs, rfl, hy, hs⟩ := gives_andThen h
  have hhead : ∃ n, ys = [n] ∧ n.rule.isExpression = true := by
    rcases gives_alt hy with hy | hy <;> exact gives_expression_node rfl rfl hy
  obtain ⟨head, rfl, hhead⟩ := hhead
  refine built_suffixed rfl (fun _ _ _ => by simp [Build.expr]) rfl hhead ?_ hc
  refine gives_star_each (fun {ns} h => ?_) hs
  obtain ⟨e, he, h⟩ := gives_oneOf (List.cons_ne_nil _ _) h
  simp only [List.mem_cons, List.not_mem_nil, or_false] at he
  rcases he with rfl | rfl | rfl
  · exact fun c hc => .inl (gives_rule_each rfl h c hc)
  · exact fun c hc => .inr (.inl (gives_rule_each rfl h c hc))
  · exact fun c hc => .inr (.inr (gives_rule_each rfl h c hc))

theorem built_memberNode (h : Gives src (Rule.body .memberExpression) xs)
    (hc : ∀ c ∈ xs, Built src c) : Built src ⟨.memberExpression, a, b, xs⟩ := by
  simp only [Rule.body, Peg.Expr.chain] at h
  obtain ⟨ys, sufs, rfl, hy, hs⟩ := gives_andThen h
  have hhead : ∃ n, ys = [n] ∧ n.rule.isExpression = true := by
    rcases gives_alt hy with hy | hy
    · exact gives_expression_node rfl rfl hy
    · exact gives_primary hy
  obtain ⟨head, rfl, hhead⟩ := hhead
  refine built_suffixed rfl (fun _ _ _ => by simp [Build.expr]) rfl hhead ?_ hc
  refine gives_star_each (fun {ns} h => ?_) hs
  rcases gives_alt h with h | h
  · exact fun c hc => .inr (.inl (gives_rule_each rfl h c hc))
  · exact fun c hc => .inr (.inr (gives_rule_each rfl h c hc))

theorem built_newMemberNode (h : Gives src (Rule.body .newMember) xs)
    (hc : ∀ c ∈ xs, Built src c) : Built src ⟨.newMember, a, b, xs⟩ := by
  rw [built_expression rfl]
  simp only [Rule.body, Peg.Expr.chain] at h
  obtain ⟨ws, ys, rfl, hw, hy⟩ := gives_andThen h
  obtain ⟨cs, args, rfl, hcs, hargs⟩ := gives_andThen hy
  obtain ⟨c, rfl, hcr⟩ := gives_rule_node rfl hcs
  obtain ⟨n, rfl, hnr⟩ := gives_rule_node rfl hargs
  rw [gives_word hw] at hc ⊢
  obtain ⟨e, he⟩ := (hc c (by simp)).expr (by rw [hcr]; rfl)
  obtain ⟨r, a', b', ch⟩ := n
  simp only at hnr
  subst hnr
  have hn := hc ⟨.arguments, a', b', ch⟩ (by simp)
  simp only [Built, Rule.isExpression, Rule.isStatement, Bool.false_eq_true, if_false] at hn
  obtain ⟨es, hes⟩ := Option.isSome_iff_exists.mp hn
  simp [Build.expr, he, hes]

theorem built_newNoArgsNode (h : Gives src (Rule.body .newNoArgs) xs)
    (hc : ∀ c ∈ xs, Built src c) : Built src ⟨.newNoArgs, a, b, xs⟩ := by
  rw [built_expression rfl]
  simp only [Rule.body, Peg.Expr.chain] at h
  obtain ⟨ws, ys, rfl, hw, hy⟩ := gives_andThen h
  obtain ⟨c, rfl, hcr⟩ := gives_rule_node rfl hy
  rw [gives_word hw] at hc ⊢
  obtain ⟨e, he⟩ := (hc c (by simp)).expr (by rw [hcr]; rfl)
  simp [Build.expr, he]

theorem built_functionExpressionNode (h : Gives src (Rule.body .functionExpression) xs)
    (hc : ∀ c ∈ xs, Built src c) : Built src ⟨.functionExpression, a, b, xs⟩ := by
  rw [built_expression rfl]
  obtain ⟨ids, params, body, rfl, hids, hpr, hbr⟩ :=
    gives_function (gives_opt_each (gives_rule_each rfl)) h
  obtain ⟨n, ps, sp, ss, hf⟩ := Build.funcParts_some hids hpr hbr (hc body (by simp))
  simp [Build.expr, hf, Build.func?]

theorem built_arrayNode (h : Gives src (Rule.body .arrayLiteral) xs)
    (hc : ∀ c ∈ xs, Built src c) : Built src ⟨.arrayLiteral, a, b, xs⟩ := by
  rw [built_expression rfl]
  simp only [Rule.body, Peg.Expr.chain] at h
  obtain ⟨l1, r1, rfl, hl1, h1⟩ := gives_andThen h
  obtain ⟨items, r2, rfl, hitems, h2⟩ := gives_andThen h1
  obtain ⟨cm, l2, rfl, hcm, hl2⟩ := gives_andThen h2
  -- a trailing comma gives nothing either
  have hcm := gives_opt_lit hcm
  rw [gives_lit hl1, gives_lit hl2, hcm] at hc ⊢
  simp only [List.nil_append, List.append_nil] at hc ⊢
  have hr := gives_opt_each (gives_commaList_each (gives_rule_each rfl)) hitems
  obtain ⟨es, hes⟩ := Build.exprs_some fun c (hcx : c ∈ items) =>
    (hc c hcx).expr (by rw [hr c hcx]; rfl)
  simp [Build.expr, hes]

theorem built_objectNode (h : Gives src (Rule.body .objectLiteral) xs)
    (hc : ∀ c ∈ xs, Built src c) : Built src ⟨.objectLiteral, a, b, xs⟩ := by
  rw [built_expression rfl]
  simp only [Rule.body, Peg.Expr.chain] at h
  obtain ⟨l1, r1, rfl, hl1, h1⟩ := gives_andThen h
  obtain ⟨items, l2, rfl, hitems, hl2⟩ := gives_andThen h1
  rw [gives_lit hl1, gives_lit hl2] at hc ⊢
  simp only [List.nil_append, List.append_nil] at hc ⊢
  have hr : ∀ c ∈ items, c.rule = .propertyAssignment := by
    refine gives_opt_each (fun {ns} h => ?_) hitems
    obtain ⟨ps, cm, rfl, hps, hcm⟩ := gives_andThen h
    have hcm := gives_opt_lit hcm
    rw [hcm, List.append_nil]
    exact gives_commaList_each (gives_rule_each rfl) hps
  have hps := Build.props_some fun c (hcx : c ∈ items) => ⟨hr c hcx, hc c hcx⟩
  obtain ⟨ps, hps⟩ := Option.isSome_iff_exists.mp hps
  simp [Build.expr, hps]

theorem built_propertyNode (h : Gives src (Rule.body .propertyAssignment) xs)
    (hc : ∀ c ∈ xs, Built src c) : Built src ⟨.propertyAssignment, a, b, xs⟩ := by
  simp only [Rule.body, Peg.Expr.chain] at h
  obtain ⟨ks, r1, rfl, hks, h1⟩ := gives_andThen h
  obtain ⟨l, vs, rfl, hl, hvs⟩ := gives_andThen h1
  obtain ⟨e, he, hk⟩ := gives_oneOf (List.cons_ne_nil _ _) hks
  obtain ⟨v, rfl, hvr⟩ := gives_rule_node rfl hvs
  -- a key is a name, a string literal or a number literal
  obtain ⟨k, rfl, hkey⟩ : ∃ k, ks = [k] ∧ (Build.key? src k).isSome = true := by
    simp only [List.mem_cons, List.not_mem_nil, or_false] at he
    rcases he with rfl | rfl | rfl <;>
    · obtain ⟨k, rfl, hkr⟩ := gives_rule_node rfl hk
      obtain ⟨r, a', b', ch⟩ := k
      simp only at hkr
      subst hkr
      exact ⟨_, rfl, by simp [Build.key?]⟩
  rw [gives_lit hl] at hc ⊢
  simp only [Built, Rule.isExpression, Rule.isStatement, Bool.false_eq_true, if_false]
  exact ⟨k, v, by simp, hkey, (built_expression (by rw [hvr]; rfl)).mp (hc v (by simp))⟩

theorem built_argumentsNode (h : Gives src (Rule.body .arguments) xs)
    (hc : ∀ c ∈ xs, Built src c) : Built src ⟨.arguments, a, b, xs⟩ := by
  simp only [Rule.body, Peg.Expr.chain] at h
  obtain ⟨l1, r1, rfl, hl1, h1⟩ := gives_andThen h
  obtain ⟨items, l2, rfl, hitems, hl2⟩ := gives_andThen h1
  rw [gives_lit hl1, gives_lit hl2] at hc ⊢
  simp only [List.nil_append, List.append_nil] at hc ⊢
  have hr := gives_opt_each (gives_commaList_each (gives_rule_each rfl)) hitems
  obtain ⟨es, hes⟩ := Build.exprs_some fun c (hcx : c ∈ items) =>
    (hc c hcx).expr (by rw [hr c hcx]; rfl)
  simp [Built, Rule.isExpression, Rule.isStatement, hes]

theorem built_dotMemberNode (h : Gives src (Rule.body .dotMember) xs) :
    Built src ⟨.dotMember, a, b, xs⟩ := by
  simp only [Rule.body, Peg.Expr.chain] at h
  obtain ⟨l, ns, rfl, hl, hn⟩ := gives_andThen h
  obtain ⟨n, rfl, -⟩ := gives_rule_node rfl hn
  rw [gives_lit hl]
  simp [Built, Rule.isExpression, Rule.isStatement]

theorem built_computedMemberNode (h : Gives src (Rule.body .computedMember) xs)
    (hc : ∀ c ∈ xs, Built src c) : Built src ⟨.computedMember, a, b, xs⟩ := by
  simp only [Rule.body, Peg.Expr.chain] at h
  obtain ⟨l1, r1, rfl, hl1, h1⟩ := gives_andThen h
  obtain ⟨ks, l2, rfl, hks, hl2⟩ := gives_andThen h1
  obtain ⟨k, rfl, hkr⟩ := gives_rule_node rfl hks
  rw [gives_lit hl1, gives_lit hl2] at hc ⊢
  simp only [Built, Rule.isExpression, Rule.isStatement, Bool.false_eq_true, if_false]
  exact ⟨k, by simp, (built_expression (by rw [hkr]; rfl)).mp (hc k (by simp))⟩

theorem built_functionBodyNode (h : Gives src (Rule.body .functionBody) xs)
    (hc : ∀ c ∈ xs, Built src c) : Built src ⟨.functionBody, a, b, xs⟩ := by
  have hr := gives_braced h
  obtain ⟨ss, hss⟩ := Build.stmts_some fun c hcx => (hc c hcx).stmt (hr c hcx)
  simp [Built, Rule.isExpression, Rule.isStatement, hss]

theorem built_blockNode (h : Gives src (Rule.body .blockStatement) xs)
    (hc : ∀ c ∈ xs, Built src c) : Built src ⟨.blockStatement, a, b, xs⟩ := by
  rw [built_statement rfl]
  have hr := gives_braced h
  obtain ⟨ss, hss⟩ := Build.stmts_some fun c hcx => (hc c hcx).stmt (hr c hcx)
  simp [Build.stmt, hss]

theorem built_variableStatementNode (h : Gives src (Rule.body .variableStatement) xs)
    (hc : ∀ c ∈ xs, Built src c) : Built src ⟨.variableStatement, a, b, xs⟩ := by
  rw [built_statement rfl]
  simp only [Rule.body, Peg.Expr.chain] at h
  obtain ⟨ws, r1, rfl, hw, h1⟩ := gives_andThen h
  obtain ⟨ds, sc, rfl, hds, hsc⟩ := gives_andThen h1
  obtain ⟨d, rfl, hdr⟩ := gives_rule_node rfl hds
  have hsc := gives_opt_lit hsc
  rw [gives_word hw, hsc] at hc ⊢
  obtain ⟨r, a', b', ch⟩ := d
  simp only at hdr
  subst hdr
  have hd := hc ⟨.variableDeclarationList, a', b', ch⟩ (by simp)
  simp only [Built, Rule.isExpression, Rule.isStatement, Bool.false_eq_true, if_false] at hd
  obtain ⟨decls, hdecls⟩ := Option.isSome_iff_exists.mp hd
  simp [Build.stmt, hdecls]

theorem built_declarationListNode (h : Gives src (Rule.body .variableDeclarationList) xs)
    (hc : ∀ c ∈ xs, Built src c) : Built src ⟨.variableDeclarationList, a, b, xs⟩ := by
  have hr := gives_commaList_each (gives_rule_each rfl) h
  have hd := Build.declarators_some fun c hcx => ⟨hr c hcx, hc c hcx⟩
  simpa [Built, Rule.isExpression, Rule.isStatement] using hd

theorem built_declarationNode (h : Gives src (Rule.body .variableDeclaration) xs)
    (hc : ∀ c ∈ xs, Built src c) : Built src ⟨.variableDeclaration, a, b, xs⟩ := by
  simp only [Built, Rule.isExpression, Rule.isStatement, Bool.false_eq_true, if_false]
  simp only [Rule.body, Peg.Expr.chain] at h
  obtain ⟨is, r1, rfl, his, h1⟩ := gives_andThen h
  obtain ⟨i, rfl, -⟩ := gives_rule_node rfl his
  rcases gives_opt h1 with rfl | h1
  · exact .inl ⟨i, rfl⟩
  · obtain ⟨l, es, rfl, hl, hes⟩ := gives_andThen h1
    obtain ⟨e, rfl, her⟩ := gives_rule_node rfl hes
    rw [gives_lit hl] at hc ⊢
    exact .inr ⟨i, e, rfl, (built_expression (by rw [her]; rfl)).mp (hc e (by simp))⟩

theorem built_ifNode (h : Gives src (Rule.body .ifStatement) xs)
    (hc : ∀ c ∈ xs, Built src c) : Built src ⟨.ifStatement, a, b, xs⟩ := by
  rw [built_statement rfl]
  simp only [Rule.body, Peg.Expr.chain] at h
  obtain ⟨ws, r1, rfl, hw, h1⟩ := gives_andThen h
  obtain ⟨l1, r2, rfl, hl1, h2⟩ := gives_andThen h1
  obtain ⟨ts, r3, rfl, hts, h3⟩ := gives_andThen h2
  obtain ⟨l2, r4, rfl, hl2, h4⟩ := gives_andThen h3
  obtain ⟨ys, ns, rfl, hys, hns⟩ := gives_andThen h4
  obtain ⟨t, rfl, htr⟩ := gives_rule_node rfl hts
  obtain ⟨y, rfl, hy⟩ := gives_statement hys
  rw [gives_word hw, gives_lit hl1, gives_lit hl2] at hc ⊢
  obtain ⟨et, het⟩ := (hc t (by simp)).expr (by rw [htr]; rfl)
  obtain ⟨sy, hsy⟩ := (hc y (by simp)).stmt hy
  rcases gives_opt hns with rfl | hns
  · simp [Build.stmt, het, hsy]
  · obtain ⟨ws', ns', rfl, hw', hns'⟩ := gives_andThen hns
    obtain ⟨n, rfl, hn⟩ := gives_statement hns'
    rw [gives_word hw'] at hc ⊢
    obtain ⟨sn, hsn⟩ := (hc n (by simp)).stmt hn
    simp [Build.stmt, het, hsy, hsn]

theorem built_whileNode (h : Gives src (Rule.body .whileStatement) xs)
    (hc : ∀ c ∈ xs, Built src c) : Built src ⟨.whileStatement, a, b, xs⟩ := by
  rw [built_statement rfl]
  simp only [Rule.body, Peg.Expr.chain] at h
  obtain ⟨ws, r1, rfl, hw, h1⟩ := gives_andThen h
  obtain ⟨l1, r2, rfl, hl1, h2⟩ := gives_andThen h1
  obtain ⟨ts, r3, rfl, hts, h3⟩ := gives_andThen h2
  obtain ⟨l2, ys, rfl, hl2, hys⟩ := gives_andThen h3
  obtain ⟨t, rfl, htr⟩ := gives_rule_node rfl hts
  obtain ⟨y, rfl, hy⟩ := gives_statement hys
  rw [gives_word hw, gives_lit hl1, gives_lit hl2] at hc ⊢
  obtain ⟨et, het⟩ := (hc t (by simp)).expr (by rw [htr]; rfl)
  obtain ⟨sy, hsy⟩ := (hc y (by simp)).stmt hy
  simp [Build.stmt, het, hsy]

theorem built_forNode (h : Gives src (Rule.body .forStatement) xs)
    (hc : ∀ c ∈ xs, Built src c) : Built src ⟨.forStatement, a, b, xs⟩ := by
  rw [built_statement rfl]
  simp only [Rule.body, Peg.Expr.chain] at h
  obtain ⟨ws, r1, rfl, hw, h1⟩ := gives_andThen h
  obtain ⟨l1, r2, rfl, hl1, h2⟩ := gives_andThen h1
  obtain ⟨is, r3, rfl, his, h3⟩ := gives_andThen h2
  obtain ⟨l2, r4, rfl, hl2, h4⟩ := gives_andThen h3
  obtain ⟨ts, r5, rfl, hts, h5⟩ := gives_andThen h4
  obtain ⟨l3, r6, rfl, hl3, h6⟩ := gives_andThen h5
  obtain ⟨us, r7, rfl, hus, h7⟩ := gives_andThen h6
  obtain ⟨l4, ys, rfl, hl4, hys⟩ := gives_andThen h7
  obtain ⟨y, rfl, hy⟩ := gives_statement hys
  rw [gives_word hw, gives_lit hl1, gives_lit hl2, gives_lit hl3, gives_lit hl4] at hc ⊢
  simp only [List.nil_append] at hc ⊢
  -- the clauses before the body, each one the builder reads
  have hclauses : ∀ c ∈ is ++ (ts ++ us),
      (c.rule = .forInit ∨ c.rule = .forTest ∨ c.rule = .forUpdate) ∧ Built src c := by
    intro c hcm
    have hmem : c ∈ is ++ (ts ++ (us ++ [y])) := by
      simp only [List.mem_append] at hcm ⊢
      rcases hcm with hcm | hcm | hcm <;> simp [hcm]
    refine ⟨?_, hc c hmem⟩
    rcases List.mem_append.mp hcm with hcm | hcm
    · exact .inl (gives_opt_each (gives_rule_each rfl) his c hcm)
    · rcases List.mem_append.mp hcm with hcm | hcm
      · exact .inr (.inl (gives_opt_each (gives_rule_each rfl) hts c hcm))
      · exact .inr (.inr (gives_opt_each (gives_rule_each rfl) hus c hcm))
  obtain ⟨i, t, u, body, hf⟩ := Build.forParts_some hclauses hy ((hc y (by simp)).stmt hy)
  simp only [List.append_assoc] at hf
  simp [Build.stmt, hf]

theorem built_forInitNode (h : Gives src (Rule.body .forInit) xs)
    (hc : ∀ c ∈ xs, Built src c) : Built src ⟨.forInit, a, b, xs⟩ := by
  simp only [Built, Rule.isExpression, Rule.isStatement, Bool.false_eq_true, if_false]
  simp only [Rule.body, Peg.Expr.chain] at h
  rcases gives_alt h with h | h
  · obtain ⟨ws, ds, rfl, hw, hds⟩ := gives_andThen h
    obtain ⟨d, rfl, hdr⟩ := gives_rule_node rfl hds
    rw [gives_word hw] at hc ⊢
    have hd := hc d (by simp)
    obtain ⟨r, a', b', ch⟩ := d
    simp only at hdr
    subst hdr
    simp only [Built, Rule.isExpression, Rule.isStatement, Bool.false_eq_true, if_false] at hd
    exact ⟨_, rfl, .inl ⟨rfl, hd⟩⟩
  · obtain ⟨e, rfl, her⟩ := gives_rule_node rfl h
    exact ⟨e, rfl, .inr ⟨her, (built_expression (by rw [her]; rfl)).mp (hc e (by simp))⟩⟩

theorem built_forClauseNode {r : Rule} (hr : r = .forTest ∨ r = .forUpdate)
    (h : Gives src (Rule.body r) xs) (hc : ∀ c ∈ xs, Built src c) : Built src ⟨r, a, b, xs⟩ := by
  have hbody : Rule.body r = .rule .expression := by
    rcases hr with rfl | rfl <;> rfl
  rw [hbody] at h
  obtain ⟨e, rfl, her⟩ := gives_rule_node rfl h
  have he := (built_expression (by rw [her]; rfl)).mp (hc e (by simp))
  rcases hr with rfl | rfl <;>
  · simp only [Built, Rule.isExpression, Rule.isStatement, Bool.false_eq_true, if_false]
    exact ⟨e, rfl, he⟩

theorem built_returnNode (h : Gives src (Rule.body .returnStatement) xs)
    (hc : ∀ c ∈ xs, Built src c) : Built src ⟨.returnStatement, a, b, xs⟩ := by
  rw [built_statement rfl]
  simp only [Rule.body, Peg.Expr.chain] at h
  obtain ⟨ws, r1, rfl, hw, h1⟩ := gives_andThen h
  obtain ⟨es, sc, rfl, hes, hsc⟩ := gives_andThen h1
  have hsc := gives_opt_lit hsc
  rw [gives_word hw, hsc] at hc ⊢
  rcases gives_opt hes with rfl | hes
  · simp [Build.stmt]
  · obtain ⟨e, rfl, her⟩ := gives_rule_node rfl hes
    obtain ⟨ee, hee⟩ := (hc e (by simp)).expr (by rw [her]; rfl)
    simp [Build.stmt, hee]

theorem built_functionDeclarationNode (h : Gives src (Rule.body .functionDeclaration) xs)
    (hc : ∀ c ∈ xs, Built src c) : Built src ⟨.functionDeclaration, a, b, xs⟩ := by
  rw [built_statement rfl]
  obtain ⟨ids, params, body, rfl, hids, hpr, hbr⟩ := gives_function (gives_rule_each rfl) h
  obtain ⟨n, ps, sp, ss, hf⟩ := Build.funcParts_some hids hpr hbr (hc body (by simp))
  simp [Build.stmt, hf, Build.func?]

theorem built_expressionStatementNode (h : Gives src (Rule.body .expressionStatement) xs)
    (hc : ∀ c ∈ xs, Built src c) : Built src ⟨.expressionStatement, a, b, xs⟩ := by
  rw [built_statement rfl]
  simp only [Rule.body, Peg.Expr.chain] at h
  obtain ⟨es, sc, rfl, hes, hsc⟩ := gives_andThen h
  obtain ⟨e, rfl, her⟩ := gives_rule_node rfl hes
  have hsc := gives_opt_lit hsc
  rw [hsc] at hc ⊢
  obtain ⟨ee, hee⟩ := (hc e (by simp)).expr (by rw [her]; rfl)
  simp [Build.stmt, hee]

theorem built_scriptNode (h : Gives src (Rule.body .script) xs)
    (hc : ∀ c ∈ xs, Built src c) : Built src ⟨.script, a, b, xs⟩ := by
  simp only [Built, Rule.isExpression, Rule.isStatement, Bool.false_eq_true, if_false]
  simp only [Rule.body, Peg.Expr.chain] at h
  obtain ⟨st, r1, rfl, hst, h1⟩ := gives_andThen h
  obtain ⟨ss, es, rfl, hss, hes⟩ := gives_andThen h1
  obtain ⟨e, rfl, her⟩ := gives_rule_node rfl hes
  have hstart : st = [] := by
    obtain ⟨p, q, h⟩ := hst
    cases h
    rfl
  rw [hstart] at hc ⊢
  have hr : ∀ c ∈ ss, c.rule.isStatement = true :=
    gives_star_each (fun {ns} h => by
      obtain ⟨n, rfl, hn⟩ := gives_statement h
      simpa using hn) hss
  -- the end of input is left out, the statements stay
  have hfilter : (ss ++ [e]).filter (fun c => !(c.rule == .eoi)) = ss := by
    rw [List.filter_append, List.filter_eq_self.mpr, List.filter_eq_nil_iff.mpr]
    · simp
    · intro c hcm
      simp [List.mem_singleton.mp hcm, her]
    · intro c hcm
      have := hr c hcm
      revert this
      cases c.rule <;> decide
  rw [List.nil_append, hfilter]
  obtain ⟨sts, hsts⟩ := Build.stmts_some fun c (hcx : c ∈ ss) =>
    (hc c (by simp [hcx])).stmt (hr c hcx)
  simp [hsts]

/-! ## Tokens -/

/-- An atomic body with spellings reads one of them, so a property of every spelling holds of
the text of the node. -/
theorem text_of_spelled {r : Rule} {m : Mode} {texts : List (List Char)} {P : String → Prop}
    (h : Reads scriptGrammar src.chars m (Rule.body r) a b xs) (hm : m.atomic = true)
    (hs : (Rule.body r).spellings = some texts) (hP : ∀ s ∈ texts, P (String.ofList s)) :
    P (src.text ⟨r, a, b, xs⟩) := by
  obtain ⟨s, hs, hmatch, rfl⟩ := h.spelled hm hs
  have htext : src.text ⟨r, a, a + s.length, xs⟩ = String.ofList s := by
    simp only [Source.text, Source.slice, extract_of_matchAt hmatch]
  rw [htext]
  exact hP s hs

theorem Built.binaryOp {n : Node Rule} (hb : Built src n)
    (hr : n.rule = .equalityOperator ∨ n.rule = .relationalOperator ∨
      n.rule = .additiveOperator ∨ n.rule = .multiplicativeOperator) :
    (Build.binaryOp? (src.text n)).isSome = true := by
  rcases hr with hr | hr | hr | hr <;> simpa [Built, hr, Rule.isExpression, Rule.isStatement] using hb

/-- The builder reads every node whose body the grammar read, given that it reads the
node's children. -/
theorem built_of_body {r : Rule}
    (h : Reads scriptGrammar src.chars ⟨.none, (Rule.kind r).atomic⟩ (Rule.body r) a b xs)
    (hc : ∀ c ∈ xs, Built src c) : Built src ⟨r, a, b, xs⟩ := by
  cases r with
  -- rules the builder reads only through their parents, or never
  | eoi | whitespace | comment | identStart | identPart | keyword | identifierName
  | hexIntegerLiteral | decimalLiteral | exponentPart | escapeSequence | primaryExpression
  | formalParameters | statement => trivial
  -- tokens that stand for an expression whatever text they read
  | thisExpression | identifier | nullLiteral | booleanLiteral | numericLiteral | stringLiteral =>
    simp [Built, Rule.isExpression, Build.expr, Build.literal?]
  -- operator tokens: every spelling of the rule is one the builder knows
  | assignmentOperator =>
    simp only [Built, Rule.isExpression, Rule.isStatement, Bool.false_eq_true, if_false]
    exact text_of_spelled (P := fun t => (Build.assignOp? t).isSome = true) h rfl rfl (by decide)
  | equalityOperator | relationalOperator | additiveOperator | multiplicativeOperator =>
    simp only [Built, Rule.isExpression, Rule.isStatement, Bool.false_eq_true, if_false]
    exact text_of_spelled (P := fun t => (Build.binaryOp? t).isSome = true) h rfl rfl (by decide)
  | unaryOperator =>
    simp only [Built, Rule.isExpression, Rule.isStatement, Bool.false_eq_true, if_false]
    exact text_of_spelled
      (P := fun t => (Build.updateOp? t).isSome = true ∨ (Build.unaryOp? t).isSome = true)
      h rfl rfl (by decide)
  | postfixOperator =>
    simp only [Built, Rule.isExpression, Rule.isStatement, Bool.false_eq_true, if_false]
    exact text_of_spelled (P := fun t => (Build.updateOp? t).isSome = true) h rfl rfl (by decide)
  -- the rules with children
  | script => exact built_scriptNode ⟨a, b, h⟩ hc
  | expression => exact built_expressionNode ⟨a, b, h⟩ hc
  | assignmentExpression => exact built_assignmentNode ⟨a, b, h⟩ hc
  | conditionalExpression => exact built_conditionalNode ⟨a, b, h⟩ hc
  | logicalOrExpression =>
    exact built_logical .or rfl rfl rfl (fun _ _ _ _ => by simp [Build.expr]) ⟨a, b, h⟩ hc
  | logicalAndExpression =>
    exact built_logical .and rfl rfl rfl (fun _ _ _ _ => by simp [Build.expr]) ⟨a, b, h⟩ hc
  | equalityExpression =>
    exact built_binary rfl rfl rfl rfl (fun _ hn hb => hb.binaryOp (.inl hn))
      (fun _ _ _ => by simp [Build.expr]) ⟨a, b, h⟩ hc
  | relationalExpression =>
    exact built_binary rfl rfl rfl rfl (fun _ hn hb => hb.binaryOp (.inr (.inl hn)))
      (fun _ _ _ => by simp [Build.expr]) ⟨a, b, h⟩ hc
  | additiveExpression =>
    exact built_binary rfl rfl rfl rfl (fun _ hn hb => hb.binaryOp (.inr (.inr (.inl hn))))
      (fun _ _ _ => by simp [Build.expr]) ⟨a, b, h⟩ hc
  | multiplicativeExpression =>
    exact built_binary rfl rfl rfl rfl (fun _ hn hb => hb.binaryOp (.inr (.inr (.inr hn))))
      (fun _ _ _ => by simp [Build.expr]) ⟨a, b, h⟩ hc
  | unaryExpression => exact built_unaryNode ⟨a, b, h⟩ hc
  | postfixExpression => exact built_postfixNode ⟨a, b, h⟩ hc
  | lhsExpression => exact built_lhsNode ⟨a, b, h⟩ hc
  | memberExpression => exact built_memberNode ⟨a, b, h⟩ hc
  | newMember => exact built_newMemberNode ⟨a, b, h⟩ hc
  | newNoArgs => exact built_newNoArgsNode ⟨a, b, h⟩ hc
  | functionExpression => exact built_functionExpressionNode ⟨a, b, h⟩ hc
  | arrayLiteral => exact built_arrayNode ⟨a, b, h⟩ hc
  | objectLiteral => exact built_objectNode ⟨a, b, h⟩ hc
  | propertyAssignment => exact built_propertyNode ⟨a, b, h⟩ hc
  | arguments => exact built_argumentsNode ⟨a, b, h⟩ hc
  | dotMember => exact built_dotMemberNode ⟨a, b, h⟩
  | computedMember => exact built_computedMemberNode ⟨a, b, h⟩ hc
  | functionBody => exact built_functionBodyNode ⟨a, b, h⟩ hc
  | blockStatement => exact built_blockNode ⟨a, b, h⟩ hc
  | variableStatement => exact built_variableStatementNode ⟨a, b, h⟩ hc
  | variableDeclarationList => exact built_declarationListNode ⟨a, b, h⟩ hc
  | variableDeclaration => exact built_declarationNode ⟨a, b, h⟩ hc
  | emptyStatement | breakStatement | continueStatement =>
    simp [Built, Rule.isExpression, Rule.isStatement, Build.stmt]
  | ifStatement => exact built_ifNode ⟨a, b, h⟩ hc
  | whileStatement => exact built_whileNode ⟨a, b, h⟩ hc
  | forStatement => exact built_forNode ⟨a, b, h⟩ hc
  | forInit => exact built_forInitNode ⟨a, b, h⟩ hc
  | forTest => exact built_forClauseNode (.inl rfl) ⟨a, b, h⟩ hc
  | forUpdate => exact built_forClauseNode (.inr rfl) ⟨a, b, h⟩ hc
  | returnStatement => exact built_returnNode ⟨a, b, h⟩ hc
  | functionDeclaration => exact built_functionDeclarationNode ⟨a, b, h⟩ hc
  | expressionStatement => exact built_expressionStatementNode ⟨a, b, h⟩ hc

/-- Every node of every reading of the script grammar is one the builder reads: induction on
the reading, each node being settled by `built_of_body` once its children are. -/
theorem reads_built {m : Mode} {e : Peg.Expr Rule} {p q : Nat} {ns : List (Node Rule)}
    (h : Reads scriptGrammar src.chars m e p q ns) : ∀ n ∈ ns, Built src n := by
  induction h with
  | seq _ _ iha ihb | manyCons _ _ iha ihb =>
    intro n hn
    rcases List.mem_append.mp hn with hn | hn
    · exact iha n hn
    · exact ihb n hn
  | blank _ _ ih | altLeft _ ih | altRight _ ih | optSome _ ih | manyStop _ ih => exact ih
  | rule hbody ih =>
    rename_i m r p q xs
    split
    · next hnode =>
      -- a node is made only at the top mode, where its body is read in the rule's own mode
      obtain ⟨-, hlook, hatomic⟩ := hnode
      obtain ⟨look, atomic⟩ := m
      simp only at hlook hatomic
      subst hlook hatomic
      intro n hn
      rw [List.mem_singleton.mp hn]
      exact built_of_body hbody ih
    · exact ih
  | _ => simp

theorem ofNodes_some {src : Source} {nodes : List (Node Rule)}
    (h : Peg.parse scriptGrammar .script src.chars = .ok nodes) :
    ∃ prog, Program.ofNodes? src nodes = some prog := by
  simp only [Peg.parse] at h
  split at h
  · next q nodes' hrun =>
    injection h with h
    subst h
    cases reads_of_run hrun with
    | rule hbody =>
      -- the script rule is visible: its node is the whole result
      have hb : Built src ⟨.script, 0, q, _⟩ := built_of_body hbody (reads_built hbody)
      simp only [Built, Rule.isExpression, Rule.isStatement, Bool.false_eq_true, if_false] at hb
      obtain ⟨ss, hss⟩ := Option.isSome_iff_exists.mp hb
      simp [scriptGrammar, Rule.kind, Program.ofNodes?, hss]
  · simp at h

theorem parse_fails_only_where_grammar_does (text : String) :
    (∀ nodes, Peg.parse scriptGrammar .script (Source.ofString text).chars = .ok nodes →
      ∃ prog, Program.ofNodes? (Source.ofString text) nodes = some prog ∧
        Program.parse text = .ok prog) ∧
    (∀ f, Peg.parse scriptGrammar .script (Source.ofString text).chars = .error f →
      Program.parse text = .error (ParseError.ofFailure (Source.ofString text) f)) := by
  constructor
  · intro nodes h
    obtain ⟨prog, hprog⟩ := ofNodes_some h
    refine ⟨prog, hprog, ?_⟩
    simp [Program.parse, h, hprog]
  · intro f h
    simp [Program.parse, h]

/-- A call statement reads and is built; the same call left open is refused, with the error made
from the grammar's own failure. -/
theorem call_statement_reads_and_unclosed_call_fails :
    (∃ nodes prog, Peg.parse scriptGrammar .script (Source.ofString "f(x);").chars = .ok nodes ∧
      Program.ofNodes? (Source.ofString "f(x);") nodes = some prog ∧
      Program.parse "f(x);" = .ok prog) ∧
    ∃ f, Peg.parse scriptGrammar .script (Source.ofString "f(x").chars = .error f ∧
      Program.parse "f(x" = .error (ParseError.ofFailure (Source.ofString "f(x") f) := by
  have hok : (Peg.parse scriptGrammar .script (Source.ofString "f(x);").chars).isOk = true := by
    decide +kernel
  have hbad : (Peg.parse scriptGrammar .script (Source.ofString "f(x").chars).isOk = false := by
    decide +kernel
  obtain ⟨nodes, hn⟩ : ∃ nodes,
      Peg.parse scriptGrammar .script (Source.ofString "f(x);").chars = .ok nodes := by
    cases hp : Peg.parse scriptGrammar .script (Source.ofString "f(x);").chars with
    | error _ =>
      rw [hp] at hok
      cases hok
    | ok nodes => exact ⟨nodes, rfl⟩
  obtain ⟨f, hf⟩ : ∃ f,
      Peg.parse scriptGrammar .script (Source.ofString "f(x").chars = .error f := by
    cases hp : Peg.parse scriptGrammar .script (Source.ofString "f(x").chars with
    | error f => exact ⟨f, rfl⟩
    | ok _ =>
      rw [hp] at hbad
      cases hbad
  obtain ⟨prog, hprog, hparse⟩ := (parse_fails_only_where_grammar_does "f(x);").1 nodes hn
  exact ⟨⟨nodes, prog, hn, hprog, hparse⟩, f, hf,
    (parse_fails_only_where_grammar_does "f(x").2 f hf⟩

end EcmaLite
